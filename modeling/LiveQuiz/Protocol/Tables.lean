import LiveQuiz.Model.Store
import Mathlib.Data.List.Pairwise

/-! # What statements do to the tables

Collisions of unique keys are insensitive to updates and split over inserted
rows; updates touch only the rows of their target. The append-only tables grow by
the rows of the inserts.
-/

namespace LiveQuiz

set_option autoImplicit false

section

variable {ρ : Type} {key : ρ → Id} {i : Id} {f : ρ → ρ} {rows : List ρ} {r : ρ}

theorem mem_updateWhere : r ∈ updateWhere key i f rows ↔
    (r ∈ rows ∧ key r ≠ i) ∨ ∃ r₀ ∈ rows, key r₀ = i ∧ f r₀ = r := by
  unfold updateWhere
  rw [List.mem_map]
  constructor
  · rintro ⟨r₀, hr₀, h⟩
    by_cases hk : key r₀ = i
    · rw [if_pos hk] at h
      exact .inr ⟨r₀, hr₀, hk, h⟩
    · rw [if_neg hk] at h
      subst h
      exact .inl ⟨hr₀, hk⟩
  · rintro (⟨hr, hk⟩ | ⟨r₀, hr₀, hk, h⟩)
    · exact ⟨r, hr, if_neg hk⟩
    · exact ⟨r₀, hr₀, by rw [if_pos hk, h]⟩

theorem mem_updateWhere_of_ne (hr : r ∈ rows) (hk : key r ≠ i) : r ∈ updateWhere key i f rows :=
  mem_updateWhere.mpr (.inl ⟨hr, hk⟩)

theorem mem_updateWhere_of_eq (hr : r ∈ rows) (hk : key r = i) : f r ∈ updateWhere key i f rows :=
  mem_updateWhere.mpr (.inr ⟨r, hr, hk, rfl⟩)

theorem find?_updateWhere {j : Id} (hf : ∀ r, key (f r) = key r) :
    (updateWhere key i f rows).find? (key · = j) =
      (rows.find? (key · = j)).map fun r => if key r = i then f r else r := by
  unfold updateWhere
  rw [List.find?_map]
  congr 2
  funext r
  by_cases hi : key r = i
  · simp [hi, hf]
  · simp [hi]

@[simp] theorem updateWhere_nil : updateWhere key i f [] = [] := rfl

theorem any_updateWhere {p : ρ → Bool} (h : ∀ r, p (f r) = p r) :
    (updateWhere key i f rows).any p = rows.any p := by
  unfold updateWhere
  rw [List.any_map]
  congr 1
  funext r
  by_cases hk : key r = i <;> simp [hk, h]

theorem filter_updateWhere {p : ρ → Bool}
    (h : ∀ r ∈ rows, key r = i → p r = false ∧ p (f r) = false) :
    (updateWhere key i f rows).filter p = rows.filter p := by
  unfold updateWhere
  induction rows with
  | nil => rfl
  | cons r rows ih =>
    have hRest := ih fun x hx => h x (List.mem_cons_of_mem r hx)
    rw [List.map_cons, List.filter_cons, List.filter_cons, hRest]
    split
    next hKey =>
      obtain ⟨hr, hfr⟩ := h r List.mem_cons_self hKey
      simp [hr, hfr]
    · rfl

theorem pairwise_updateWhere {R : ρ → ρ → Prop} (hl : ∀ a b, R a b → R (f a) b)
    (hr : ∀ a b, R a b → R a (f b)) (h : rows.Pairwise R) :
    (updateWhere key i f rows).Pairwise R := by
  unfold updateWhere
  rw [List.pairwise_map]
  refine h.imp fun {a b} hab => ?_
  by_cases ha : key a = i <;> by_cases hb : key b = i <;> simp only [ha, hb, if_true, if_false]
  · exact hl _ _ (hr _ _ hab)
  · exact hl _ _ hab
  · exact hr _ _ hab
  · exact hab

theorem pairwise_concat {R : ρ → ρ → Prop} (h : rows.Pairwise R) (hr : ∀ a ∈ rows, R a r) :
    (rows ++ [r]).Pairwise R := by
  rw [List.pairwise_append]
  exact ⟨h, List.pairwise_singleton R r, fun a ha b hb => List.mem_singleton.mp hb ▸ hr a ha⟩

theorem eq_of_pairwise {R : ρ → ρ → Prop} {a b : ρ} (h : rows.Pairwise R)
    (hSymm : ∀ a b, R a b → R b a) (ha : a ∈ rows) (hb : b ∈ rows) (hab : ¬R a b) : a = b := by
  have : Std.Symm R := ⟨hSymm⟩
  by_contra hne
  exact hab (h.forall ha hb hne)

end

theorem mem_sortBy {ρ : Type} {key : ρ → Int} {rows : List ρ} {r : ρ} :
    r ∈ sortBy key rows ↔ r ∈ rows :=
  (List.perm_insertionSort _ rows).mem_iff

theorem minBy?_none {ρ : Type} {key : ρ → Int} {rows : List ρ} (h : minBy? key rows = none) :
    rows = [] := by
  cases rows with
  | nil => rfl
  | cons r rs =>
    simp only [minBy?] at h
    split at h
    · cases h
    · split at h <;> cases h

theorem minBy?_spec {ρ : Type} {key : ρ → Int} {rows : List ρ} {m : ρ}
    (h : minBy? key rows = some m) : m ∈ rows ∧ ∀ r ∈ rows, key m ≤ key r := by
  induction rows generalizing m with
  | nil => cases h
  | cons r rs ih =>
    simp only [minBy?] at h
    cases hRest : minBy? key rs with
    | none =>
      simp only [hRest, Option.some.injEq] at h
      subst h
      rw [minBy?_none hRest]
      simp
    | some m' =>
      obtain ⟨hMem, hMin⟩ := ih hRest
      simp only [hRest] at h
      split at h
      next hLe =>
        cases h
        refine ⟨List.mem_cons_self, List.forall_mem_cons.mpr ⟨le_rfl, fun x hx => ?_⟩⟩
        exact hLe.trans (hMin x hx)
      next hLt =>
        cases h
        refine ⟨List.mem_cons_of_mem _ hMem, List.forall_mem_cons.mpr ⟨?_, hMin⟩⟩
        omega

theorem applyAll_nil (db : Db) : applyAll [] db = db := rfl

theorem applyAll_cons (w : Write) (ws : List Write) (db : Db) :
    applyAll (w :: ws) db = applyAll ws (w.apply db) := rfl

theorem applyAll_append (ws ws' : List Write) (db : Db) :
    applyAll (ws ++ ws') db = applyAll ws' (applyAll ws db) := Transactions.applyAll_append

theorem collides_apply (w w' : Write) (db : Db) :
    w.collides (w'.apply db) = (w.collides db || w.collidesWith w') := by
  unfold Write.collidesWith
  cases w with
  | insertMatch row =>
    cases w' with
    | updateMatch i st ea =>
      simp only [Write.collides, Write.apply, emptyDb, updateWhere_nil, List.any_nil, Bool.or_false]
      exact any_updateWhere fun _ => rfl
    | _ => simp [Write.collides, Write.apply, emptyDb]
  | insertMatchQuestion row =>
    cases w' with
    | updateMatchQuestion i sa da ca =>
      simp only [Write.collides, Write.apply, emptyDb, updateWhere_nil, List.any_nil, Bool.or_false]
      exact any_updateWhere fun _ => rfl
    | _ => simp [Write.collides, Write.apply, emptyDb]
  | _ => cases w' <;> simp [Write.collides, Write.apply, emptyDb]

theorem collidesWith_comm (w w' : Write) : w.collidesWith w' = w'.collidesWith w := by
  unfold Write.collidesWith
  cases w <;> cases w' <;> simp [Write.collides, Write.apply, emptyDb, updateWhere, eq_comm]

theorem collides_applyAll (w : Write) (ws : List Write) (db : Db) :
    w.collides (applyAll ws db) = (w.collides db || ws.any (w.collidesWith ·)) := by
  induction ws generalizing db with
  | nil => simp [applyAll_nil]
  | cons w' ws ih => rw [applyAll_cons, ih, collides_apply, List.any_cons, Bool.or_assoc]

def Write.submission? : Write → Option AnswerSubmission
  | .insertSubmission row => some row
  | _ => none

def Write.finalScore? : Write → Option FinalScore
  | .insertFinalScore row => some row
  | _ => none

def Write.event? : Write → Option OutboxEvent
  | .insertEvent row => some row
  | _ => none

theorem applyAll_submissions (ws : List Write) (db : Db) :
    (applyAll ws db).submissions = db.submissions ++ ws.filterMap Write.submission? := by
  refine Transactions.applyAll_appends (g := Db.submissions) fun w db => ?_
  cases w <;> simp [Write.apply, Write.submission?]

theorem applyAll_finalScores (ws : List Write) (db : Db) :
    (applyAll ws db).finalScores = db.finalScores ++ ws.filterMap Write.finalScore? := by
  refine Transactions.applyAll_appends (g := Db.finalScores) fun w db => ?_
  cases w <;> simp [Write.apply, Write.finalScore?]

theorem applyAll_outbox (ws : List Write) (db : Db) :
    (applyAll ws db).outbox = db.outbox ++ ws.filterMap Write.event? := by
  refine Transactions.applyAll_appends (g := Db.outbox) fun w db => ?_
  cases w <;> simp [Write.apply, Write.event?]

theorem Write.mem_apply_room {w : Write} {db : Db} {r : Room} (hr : r ∈ db.rooms)
    (h : w.target ≠ some (.room r.id)) : r ∈ (w.apply db).rooms := by
  cases w with
  | updateRoom i st sa ea => exact mem_updateWhere_of_ne hr fun hi => h (by rw [hi]; rfl)
  | _ => exact hr

theorem mem_applyAll_room {ws : List Write} {db : Db} {r : Room} (hr : r ∈ db.rooms)
    (h : ∀ w ∈ ws, w.target ≠ some (.room r.id)) : r ∈ (applyAll ws db).rooms :=
  Transactions.applyAll_keeps (P := fun db : Db => r ∈ db.rooms)
    (fun w hw _ hr => Write.mem_apply_room hr (h w hw)) hr

theorem Write.mem_apply_match {w : Write} {db : Db} {m : Match} (hm : m ∈ db.matches')
    (h : w.target ≠ some (.match' m.id)) : m ∈ (w.apply db).matches' := by
  cases w with
  | updateMatch i st ea => exact mem_updateWhere_of_ne hm fun hi => h (by rw [hi]; rfl)
  | insertMatch row => exact List.mem_append_left _ hm
  | _ => exact hm

theorem mem_applyAll_match {ws : List Write} {db : Db} {m : Match} (hm : m ∈ db.matches')
    (h : ∀ w ∈ ws, w.target ≠ some (.match' m.id)) : m ∈ (applyAll ws db).matches' :=
  Transactions.applyAll_keeps (P := fun db : Db => m ∈ db.matches')
    (fun w hw _ hm => Write.mem_apply_match hm (h w hw)) hm

theorem Write.mem_apply_matchQuestion {w : Write} {db : Db} {q : MatchQuestion}
    (hq : q ∈ db.matchQuestions) (h : w.target ≠ some (.matchQuestion q.id)) :
    q ∈ (w.apply db).matchQuestions := by
  cases w with
  | updateMatchQuestion i sa da ca => exact mem_updateWhere_of_ne hq fun hi => h (by rw [hi]; rfl)
  | insertMatchQuestion row => exact List.mem_append_left _ hq
  | _ => exact hq

theorem mem_applyAll_matchQuestion {ws : List Write} {db : Db} {q : MatchQuestion}
    (hq : q ∈ db.matchQuestions) (h : ∀ w ∈ ws, w.target ≠ some (.matchQuestion q.id)) :
    q ∈ (applyAll ws db).matchQuestions :=
  Transactions.applyAll_keeps (P := fun db : Db => q ∈ db.matchQuestions)
    (fun w hw _ hq => Write.mem_apply_matchQuestion hq (h w hw)) hq

/-- What every committed write keeps of a match question. -/
structure MatchQuestion.Later (q q' : MatchQuestion) : Prop where
  id : q'.id = q.id
  matchId : q'.matchId = q.matchId
  questionId : q'.questionId = q.questionId
  position : q'.position = q.position
  started : q.startedAt.isSome → q'.startedAt.isSome
  closed : q.closedAt.isSome → q'.closedAt.isSome

theorem MatchQuestion.Later.refl (q : MatchQuestion) : q.Later q :=
  ⟨rfl, rfl, rfl, rfl, fun h => h, fun h => h⟩

theorem MatchQuestion.Later.trans {a b c : MatchQuestion} (h : a.Later b) (h' : b.Later c) :
    a.Later c :=
  ⟨h'.id.trans h.id, h'.matchId.trans h.matchId, h'.questionId.trans h.questionId,
    h'.position.trans h.position, fun hs => h'.started (h.started hs),
    fun hs => h'.closed (h.closed hs)⟩

theorem MatchQuestion.later_patch (q : MatchQuestion) (sa da ca : Option Micros) :
    q.Later (q.patch sa da ca) := by
  refine ⟨rfl, rfl, rfl, rfl, fun h => ?_, fun h => ?_⟩
  · cases sa <;> simp_all [MatchQuestion.patch]
  · cases ca <;> simp_all [MatchQuestion.patch]

theorem Write.later_matchQuestion (w : Write) {db : Db} {q : MatchQuestion}
    (hq : q ∈ db.matchQuestions) : ∃ q' ∈ (w.apply db).matchQuestions, q.Later q' := by
  cases w with
  | updateMatchQuestion i sa da ca =>
    by_cases hi : q.id = i
    · exact ⟨_, mem_updateWhere_of_eq hq hi, q.later_patch sa da ca⟩
    · exact ⟨q, mem_updateWhere_of_ne hq hi, .refl q⟩
  | insertMatchQuestion row => exact ⟨q, List.mem_append_left _ hq, .refl q⟩
  | _ => exact ⟨q, hq, .refl q⟩

theorem later_matchQuestion (ws : List Write) {db : Db} {q : MatchQuestion}
    (hq : q ∈ db.matchQuestions) : ∃ q' ∈ (applyAll ws db).matchQuestions, q.Later q' := by
  refine Transactions.applyAll_keeps (P := fun db : Db => ∃ q' ∈ db.matchQuestions, q.Later q')
    (fun w _ db h => ?_) ⟨q, hq, .refl q⟩
  obtain ⟨q₁, hq₁, hLater₁⟩ := h
  obtain ⟨q₂, hq₂, hLater₂⟩ := w.later_matchQuestion hq₁
  exact ⟨q₂, hq₂, hLater₁.trans hLater₂⟩

theorem Write.later_match (w : Write) {db : Db} {m : Match} (hm : m ∈ db.matches') :
    ∃ m' ∈ (w.apply db).matches', m'.id = m.id ∧ m'.roomId = m.roomId := by
  cases w with
  | updateMatch i st ea =>
    by_cases hi : m.id = i
    · exact ⟨_, mem_updateWhere_of_eq hm hi, rfl, rfl⟩
    · exact ⟨m, mem_updateWhere_of_ne hm hi, rfl, rfl⟩
  | insertMatch row => exact ⟨m, List.mem_append_left _ hm, rfl, rfl⟩
  | _ => exact ⟨m, hm, rfl, rfl⟩

theorem later_match (ws : List Write) {db : Db} {m : Match} (hm : m ∈ db.matches') :
    ∃ m' ∈ (applyAll ws db).matches', m'.id = m.id ∧ m'.roomId = m.roomId := by
  refine Transactions.applyAll_keeps
    (P := fun db : Db => ∃ m' ∈ db.matches', m'.id = m.id ∧ m'.roomId = m.roomId)
    (fun w _ db h => ?_) ⟨m, hm, rfl, rfl⟩
  obtain ⟨m₁, hm₁, hId₁, hRoom₁⟩ := h
  obtain ⟨m₂, hm₂, hId₂, hRoom₂⟩ := w.later_match hm₁
  exact ⟨m₂, hm₂, hId₂.trans hId₁, hRoom₂.trans hRoom₁⟩

theorem Write.later_room (w : Write) {db : Db} {r : Room} (hr : r ∈ db.rooms) :
    ∃ r' ∈ (w.apply db).rooms, r'.id = r.id ∧ r'.quizSetId = r.quizSetId := by
  cases w with
  | updateRoom i st sa ea =>
    by_cases hi : r.id = i
    · exact ⟨_, mem_updateWhere_of_eq hr hi, rfl, rfl⟩
    · exact ⟨r, mem_updateWhere_of_ne hr hi, rfl, rfl⟩
  | _ => exact ⟨r, hr, rfl, rfl⟩

theorem later_room (ws : List Write) {db : Db} {r : Room} (hr : r ∈ db.rooms) :
    ∃ r' ∈ (applyAll ws db).rooms, r'.id = r.id ∧ r'.quizSetId = r.quizSetId := by
  refine Transactions.applyAll_keeps
    (P := fun db : Db => ∃ r' ∈ db.rooms, r'.id = r.id ∧ r'.quizSetId = r.quizSetId)
    (fun w _ db h => ?_) ⟨r, hr, rfl, rfl⟩
  obtain ⟨r₁, hr₁, hId₁, hQuiz₁⟩ := h
  obtain ⟨r₂, hr₂, hId₂, hQuiz₂⟩ := w.later_room hr₁
  exact ⟨r₂, hr₂, hId₂.trans hId₁, hQuiz₂.trans hQuiz₁⟩

theorem inserted_match {ws : List Write} (db : Db) {m : Match} (h : .insertMatch m ∈ ws) :
    ∃ m' ∈ (applyAll ws db).matches', m'.id = m.id ∧ m'.roomId = m.roomId := by
  obtain ⟨ws₁, ws₂, rfl⟩ := List.append_of_mem h
  rw [applyAll_append, applyAll_cons]
  exact later_match ws₂ (List.mem_append_right _ (List.mem_singleton_self m))

theorem Write.earlier_matchQuestion (w : Write) {db : Db} {q' : MatchQuestion}
    (h : q' ∈ (w.apply db).matchQuestions) :
    (∃ q ∈ db.matchQuestions, q.Later q') ∨ w = .insertMatchQuestion q' := by
  cases w with
  | updateMatchQuestion i sa da ca =>
    obtain ⟨hq, -⟩ | ⟨q, hq, -, rfl⟩ := mem_updateWhere.mp h
    · exact .inl ⟨q', hq, .refl q'⟩
    · exact .inl ⟨q, hq, q.later_patch sa da ca⟩
  | insertMatchQuestion row =>
    obtain hq | hq := List.mem_append.mp h
    · exact .inl ⟨q', hq, .refl q'⟩
    · exact .inr (by rw [List.mem_singleton.mp hq])
  | _ => exact .inl ⟨q', h, .refl q'⟩

theorem earlier_matchQuestion (ws : List Write) {db : Db} {q' : MatchQuestion}
    (h : q' ∈ (applyAll ws db).matchQuestions) :
    (∃ q ∈ db.matchQuestions, q.Later q') ∨
      ∃ q, .insertMatchQuestion q ∈ ws ∧ q.Later q' := by
  induction ws generalizing db with
  | nil => exact .inl ⟨q', h, .refl q'⟩
  | cons w ws ih =>
    obtain ⟨q₁, hq₁, hLater⟩ | ⟨q, hq, hLater⟩ := ih h
    · obtain ⟨q, hq, hLater'⟩ | rfl := w.earlier_matchQuestion hq₁
      · exact .inl ⟨q, hq, hLater'.trans hLater⟩
      · exact .inr ⟨q₁, List.mem_cons_self, hLater⟩
    · exact .inr ⟨q, List.mem_cons_of_mem _ hq, hLater⟩

/-- The unique keys hold of the committed rows. -/
structure Db.Keys (db : Db) : Prop where
  matches' : db.matches'.Pairwise fun a b => a.id ≠ b.id ∧ a.roomId ≠ b.roomId
  matchQuestions : db.matchQuestions.Pairwise fun a b =>
    a.id ≠ b.id ∧ ¬(a.matchId = b.matchId ∧ a.position = b.position)
  submissions : db.submissions.Pairwise fun a b => a.id ≠ b.id ∧
    ¬(a.matchQuestionId = b.matchQuestionId ∧ a.participantId = b.participantId) ∧
    a.requestId ≠ b.requestId
  finalScores : db.finalScores.Pairwise fun a b =>
    ¬(a.matchId = b.matchId ∧ a.participantId = b.participantId)
  outbox : db.outbox.Pairwise fun a b => a.id ≠ b.id

section

variable {db : Db}

theorem Db.Keys.match_eq (h : db.Keys) {a b : Match} (ha : a ∈ db.matches') (hb : b ∈ db.matches')
    (hab : a.id = b.id ∨ a.roomId = b.roomId) : a = b :=
  eq_of_pairwise h.matches' (fun _ _ h => ⟨h.1.symm, h.2.symm⟩) ha hb
    fun h => hab.elim h.1 h.2

theorem Db.Keys.matchQuestion_eq (h : db.Keys) {a b : MatchQuestion} (ha : a ∈ db.matchQuestions)
    (hb : b ∈ db.matchQuestions)
    (hab : a.id = b.id ∨ (a.matchId = b.matchId ∧ a.position = b.position)) : a = b :=
  eq_of_pairwise h.matchQuestions (fun _ _ h => ⟨h.1.symm, fun e => h.2 ⟨e.1.symm, e.2.symm⟩⟩) ha hb
    fun h => hab.elim h.1 h.2

theorem Db.Keys.submission_eq (h : db.Keys) {a b : AnswerSubmission} (ha : a ∈ db.submissions)
    (hb : b ∈ db.submissions) (hab : a.id = b.id ∨ a.requestId = b.requestId ∨
      (a.matchQuestionId = b.matchQuestionId ∧ a.participantId = b.participantId)) : a = b :=
  eq_of_pairwise h.submissions
    (fun _ _ h => ⟨h.1.symm, fun e => h.2.1 ⟨e.1.symm, e.2.symm⟩, h.2.2.symm⟩) ha hb
    fun h => hab.elim h.1 fun hab => hab.elim h.2.2 h.2.1

end

theorem Db.Keys.apply {db : Db} (h : db.Keys) {w : Write} (hw : w.collides db = false) :
    (w.apply db).Keys := by
  cases w with
  | insertMatch row =>
    refine { h with matches' := pairwise_concat h.matches' fun a ha => ?_ }
    have := List.any_eq_false.mp hw a ha
    simp_all
  | insertMatchQuestion row =>
    refine { h with matchQuestions := pairwise_concat h.matchQuestions fun a ha => ?_ }
    have := List.any_eq_false.mp hw a ha
    simp_all
  | insertSubmission row =>
    refine { h with submissions := pairwise_concat h.submissions fun a ha => ?_ }
    have := List.any_eq_false.mp hw a ha
    simp_all
  | insertFinalScore row =>
    refine { h with finalScores := pairwise_concat h.finalScores fun a ha => ?_ }
    have := List.any_eq_false.mp hw a ha
    simp_all
  | insertEvent row =>
    refine { h with outbox := pairwise_concat h.outbox fun a ha => ?_ }
    have := List.any_eq_false.mp hw a ha
    simp_all
  | updateRoom i st sa ea => exact { h with }
  | updateMatch i st ea =>
    exact { h with
      matches' := pairwise_updateWhere (fun _ _ => id) (fun _ _ => id) h.matches' }
  | updateMatchQuestion i sa da ca =>
    exact { h with
      matchQuestions := pairwise_updateWhere (fun _ _ => id) (fun _ _ => id) h.matchQuestions }

theorem Db.Keys.applyAll {ws : List Write} {db : Db} (h : db.Keys)
    (hdb : ∀ w ∈ ws, w.collides db = false)
    (hws : ws.Pairwise fun a b => a.collidesWith b = false) : (applyAll ws db).Keys := by
  induction ws generalizing db with
  | nil => exact h
  | cons w ws ih =>
    obtain ⟨hw, hRest⟩ := List.forall_mem_cons.mp hdb
    obtain ⟨hApart, hws⟩ := List.pairwise_cons.mp hws
    refine ih (h.apply hw) (fun w' hw' => ?_) hws
    rw [collides_apply, hRest w' hw', collidesWith_comm, hApart w' hw']
    rfl

end LiveQuiz
