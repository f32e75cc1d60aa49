import LiveQuiz.Authoring.Contract

/-! # Walking the requests

Every request keeps the contract: a service function is walked down to its COMMIT, on what
the program has read and written, and the invalidation after it on the keys that are left.
-/

namespace LiveQuiz.Authoring

open Coroutine

set_option autoImplicit false

abbrev Mach := Machine World Op Op.Res Exn Reply Job Decision EnvAction

/-- A machine with no other answers than those of `authoring`, on some search. -/
def Narrows (M : Mach) : Prop :=
  ∃ G, ∀ {w job pid fresh o d out}, M.exec w job pid fresh o d = some out →
    exec G w job pid fresh o d = some out

/-- No COMMIT loses its reply, and no call of an invalidation fails. -/
structure Careful (M : Mach) : Prop where
  commit : ∀ {w job pid fresh d out}, M.exec w job pid fresh .commit d = some out → d.fault ≠ .lost
  scan : ∀ {w job pid fresh c d out}, M.exec w job pid fresh (.scan c) d = some out → d.fault = .none
  unlink : ∀ {w job pid fresh ks d out}, M.exec w job pid fresh (.unlink ks) d = some out → d.fault = .none

def Job.left : Job → Phase
  | .hide _ => .idle
  | _ => .due

section

variable {α β : Type} {job : Job} {pid : Nat} {P P' : Own → Prop} {Q Q' : α → Own → Prop}

def Walk (pid : Nat) (job : Job) (P : Own → Prop) (p : Coro α) (Q : α → Own → Prop) : Prop :=
  ∀ M : Mach, Narrows M → Triple M contract (World.own pid) pid job
    (fun x => x.phase = .idle ∧ P x) p (fun a x => x.phase = .idle ∧ Q a x)
    (fun x => Careful M → x.phase = .idle)

/-- A part of a request that returns after its COMMIT, and raises before it. -/
def Commits (pid : Nat) (job : Job) (P : Own → Prop) (p : Coro α) : Prop :=
  ∀ M : Mach, Narrows M → Triple M contract (World.own pid) pid job
    (fun x => x.phase = .idle ∧ P x) p (fun _ x => x.phase = job.left)
    (fun x => Careful M → x.phase = .idle)

namespace Walk

theorem pure {a : α} (h : ∀ x, P x → Q a x) : Walk pid job P (Pure.pure a) Q :=
  fun _ _ => Triple.pure fun x hx => ⟨hx.1, h x hx.2⟩

theorem raise {e : Exn} : Walk pid job P (throw e) Q :=
  fun _ _ => Triple.raise fun _ hx _ => hx.1

theorem bind {p : Coro α} {f : α → Coro β} {U : β → Own → Prop} (hp : Walk pid job P p Q)
    (hf : ∀ a, Walk pid job (Q a) (f a) U) : Walk pid job P (p >>= f) U :=
  fun M hM => Triple.bind (hp M hM) fun a => hf a M hM

theorem weaken {p : Coro α} (hp : Walk pid job P p Q) (hP : ∀ x, P' x → P x)
    (hQ : ∀ a x, Q a x → Q' a x) : Walk pid job P' p Q' :=
  fun M hM => Triple.weaken (hp M hM) (fun x hx => ⟨hx.1, hP x hx.2⟩) (fun a x hx => ⟨hx.1, hQ a x hx.2⟩)
    fun _ hx => hx

theorem of_exists {ι : Type} {R : ι → Own → Prop} {p : Coro α} (h : ∀ a, Walk pid job (R a) p Q) :
    Walk pid job (fun x => ∃ a, R a x) p Q := by
  rintro M hM w ⟨hIdle, a, ha⟩
  exact h a M hM w ⟨hIdle, ha⟩

theorem of_and {R : Prop} {p : Coro α} (h : R → Walk pid job P p Q) :
    Walk pid job (fun x => R ∧ P x) p Q := by
  rintro M hM w ⟨hIdle, hR, hP⟩
  exact h hR M hM w ⟨hIdle, hP⟩

theorem commits {p : Coro α} {f : α → Coro β} (hp : Walk pid job P p Q)
    (hf : ∀ a, Commits pid job (Q a) (f a)) : Commits pid job P (p >>= f) :=
  fun M hM => Triple.bind (hp M hM) fun a => hf a M hM

end Walk

namespace Commits

theorem raise {e : Exn} : Commits pid job P (throw e : Coro α) :=
  fun _ _ => Triple.raise fun _ hx _ => hx.1

theorem weaken {p : Coro α} (hp : Commits pid job P p) (hP : ∀ x, P' x → P x) : Commits pid job P' p :=
  fun M hM => Triple.weaken (hp M hM) (fun x hx => ⟨hx.1, hP x hx.2⟩) (fun _ _ hx => hx) fun _ hx => hx

theorem of_false {p : Coro α} (h : ∀ x, ¬P x) : Commits pid job P p :=
  fun _ _ _ hs => absurd hs.2 (h _)

theorem of_exists {ι : Type} {R : ι → Own → Prop} {p : Coro α} (h : ∀ a, Commits pid job (R a) p) :
    Commits pid job (fun x => ∃ a, R a x) p := by
  rintro M hM w ⟨hIdle, a, ha⟩
  exact h a M hM w ⟨hIdle, ha⟩

theorem of_and {R : Prop} {p : Coro α} (h : R → Commits pid job P p) :
    Commits pid job (fun x => R ∧ P x) p := by
  rintro M hM w ⟨hIdle, hR, hP⟩
  exact h hR M hM w ⟨hIdle, hP⟩

theorem ret {p : Coro α} {f : α → β} (hp : Commits pid job P p) :
    Commits pid job P (p >>= fun a => Pure.pure (f a)) :=
  fun M hM => Triple.bind (hp M hM) fun _ => Triple.pure fun _ hx => hx

end Commits

theorem walk_call {o : Op} {Q : o.Res → Own → Prop} (ho : o.sweeps = false)
    (h : ∀ w, P (w.own pid) → Req pid job w o ∧ ∀ G d out a, perform G w job pid o d = some out →
      out.result = .ok a → Q a (out.shared.own pid)) : Walk pid job P (ask o) Q := by
  rintro M ⟨G, hM⟩
  apply Triple.call
  · intro w v hRely hw
    rw [hRely.1]
    exact hw
  rintro w ⟨hIdle, hw⟩
  obtain ⟨hReq, hNext⟩ := h w hw
  refine ⟨hReq, fun fresh d out hExec => ?_⟩
  have hOut : (out.shared.own pid).phase = .idle := by
    obtain hEq | ⟨a, ha, -, hEq⟩ := faulty_shared (hM hExec)
    · rw [hEq]
      exact hIdle
    · rw [hEq, perform_phase ho ha]
      exact hIdle
  cases hRes : out.result with
  | ok a => exact ⟨hOut, hNext G d out a (faulty_ok (hM hExec) hRes).2 hRes⟩
  | error e => exact fun _ => hOut

theorem walk_quiet {o : Op} (ho : o.quiet = true) : Walk pid job P (ask o) (fun _ => P) := by
  refine walk_call ?_ fun w hw => ⟨?_, fun _ d out a hOk _ => ?_⟩
  · cases o <;> first | rfl | cases ho
  · cases o <;> trivial
  · rw [perform_quiet ho hOk]
    exact hw

theorem walk_getQuiz {i : Id} : Walk pid job P (ask (.getQuiz i)) (fun r x =>
    (∀ z, r = some z → z.id = i) ∧ ∃ y, P y ∧ x = { y with seen := r }) := by
  refine walk_call rfl fun w hw => ⟨trivial, fun _ d out a hOk ha => ?_⟩
  cases hOk
  cases ha
  refine ⟨fun z hz => by simpa using List.find?_some hz, w.own pid, hw, ?_⟩
  simp [World.own]

theorem walk_questionsOf {i : Id} : Walk pid job P (ask (.questionsOf i)) (fun qs x =>
    ∃ y, P y ∧ x = { y with loaded := (qs, []) }) := by
  refine walk_call rfl fun w hw => ⟨trivial, fun _ d out a hOk ha => ⟨w.own pid, hw, ?_⟩⟩
  cases hOk
  cases ha
  simp [World.own]

theorem walk_optionsOf {is : List Id} : Walk pid job P (ask (.optionsOf is)) (fun os x =>
    ∃ y, P y ∧ x = { y with loaded := (y.loaded.1, os), first := y.first.readOptions os }) := by
  refine walk_call rfl fun w hw => ⟨trivial, fun _ d out a hOk ha => ⟨w.own pid, hw, ?_⟩⟩
  cases hOk
  cases ha
  simp [World.own]

theorem walk_getQuestion {i : Id} : Walk pid job P (ask (.getQuestion i)) (fun r x =>
    (∀ q, r = some q → q.id = i) ∧ ∃ y, P y ∧ x = { y with first := y.first.readQuestion r }) := by
  refine walk_call rfl fun w hw => ⟨trivial, fun _ d out a hOk ha => ?_⟩
  cases hOk
  cases ha
  refine ⟨fun q hq => by simpa using List.find?_some hq, w.own pid, hw, ?_⟩
  simp [World.own]

theorem walk_flush {ws : List Write} (h : ∀ wr ∈ ws, job.may wr) :
    Walk pid job P (ask (.flush ws)) (fun _ x => ∃ y, P y ∧ x = { y with tx := y.tx ++ ws }) := by
  refine walk_call rfl fun w hw => ⟨h, fun _ d out a hOk ha => ⟨w.own pid, hw, ?_⟩⟩
  obtain ⟨-, ⟨hEq, -⟩ | ⟨-, e, hErr⟩⟩ := perform_flush hOk
  · rw [hEq, own_write_self]
  · rw [hErr] at ha
    cases ha

theorem walk_shift {ids : List Id} {s : Span} {delta : Int} (h : job.edits) :
    Walk pid job P (ask (.shift ids s delta)) (fun _ x => ∃ y rows, P y ∧
      x = { y with tx := y.tx ++ [.setPositions s.quizSetId rows] }) := by
  refine walk_call rfl fun w hw => ⟨h, fun _ d out a hOk ha => ?_⟩
  obtain ⟨-, rows, ⟨hEq, -⟩ | ⟨-, e, hErr⟩⟩ := perform_shift hOk
  · refine ⟨w.own pid, rows, hw, ?_⟩
    rw [hEq, own_write_self]
  · rw [hErr] at ha
    cases ha

theorem walk_commit : Commits pid job (Ready job) (ask .commit) := by
  rintro M ⟨G, hM⟩
  apply Triple.call
  · intro w v hRely hw
    rw [hRely.1]
    exact hw
  rintro w ⟨hIdle, hReady⟩
  refine ⟨hReady, fun fresh d out hExec => ?_⟩
  have hCommitted : ((w.commit job pid).own pid).phase = job.left := by
    simp only [World.own, World.commit, Function.update_self]
    cases job <;> rfl
  obtain ⟨-, hOk⟩ | ⟨-, rfl⟩ | ⟨hLost, a, -, rfl⟩ := faulty_cases (hM hExec)
  · cases hOk
    exact hCommitted
  · exact fun _ => hIdle
  · exact fun hCareful => absurd hLost (hCareful.commit hExec)

theorem walk_loadOwnedQuiz {owner i : Id} : Walk pid job P (loadOwnedQuiz owner i) (fun z x =>
    z.id = i ∧ ∃ y, P y ∧ x = { y with seen := some z }) := by
  refine Walk.bind walk_getQuiz fun r => ?_
  cases r with
  | none => exact Walk.raise
  | some z =>
    dsimp only
    split
    · exact Walk.raise
    · exact Walk.pure fun x hx => ⟨hx.1 z rfl, hx.2⟩

def Clean (job : Job) (x : Own) : Prop := ∀ wr ∈ x.tx, job.may wr

theorem Clean.append {x : Own} {ws : List Write} (h : Clean job x) (hws : ∀ wr ∈ ws, job.may wr) :
    Clean job { x with tx := x.tx ++ ws } := by
  intro wr hwr
  obtain hwr | hwr := List.mem_append.mp hwr
  · exact h wr hwr
  · exact hws wr hwr

/-- The statements so far are the request's own and come to `d`; `f` is what it has read first. -/
def Drafting (job : Job) (d : Draft) (f : First) (x : Own) : Prop :=
  Clean job x ∧ draft x.tx = d ∧ x.first = f

theorem drafting_none (job : Job) : Drafting job {} {} .none :=
  ⟨fun _ hwr => (List.not_mem_nil hwr).elim, rfl, rfl⟩

section

variable {D : Draft} {f : First} {i : Id}

theorem Drafting.append {x : Own} {wr : Write} (h : Drafting job D f x) (hwr : job.may wr) :
    Drafting job (D.step wr) f { x with tx := x.tx ++ [wr] } := by
  obtain ⟨hClean, hDraft, hFirst⟩ := h
  refine ⟨hClean.append fun wr' hwr' => ?_, ?_, hFirst⟩
  · rw [List.mem_singleton.mp hwr']
    exact hwr
  · rw [draft_append, hDraft]

theorem drafting_flush {wr : Write} (h : job.may wr) :
    Walk pid job (Drafting job D f) (ask (.flush [wr])) (fun _ => Drafting job (D.step wr) f) := by
  refine Walk.weaken (walk_flush fun wr' hwr' => ?_) (fun _ hx => hx) ?_
  · rw [List.mem_singleton.mp hwr']
    exact h
  · rintro _ _ ⟨y, hy, rfl⟩
    exact hy.append h

theorem drafting_getQuiz :
    Walk pid job (Drafting job D f) (ask (.getQuiz i)) (fun _ => Drafting job D f) := by
  refine Walk.weaken walk_getQuiz (fun _ hx => hx) ?_
  rintro _ _ ⟨-, y, hy, rfl⟩
  exact hy

theorem drafting_getQuestion : Walk pid job (Drafting job D f) (ask (.getQuestion i)) (fun r x =>
    (∀ q, r = some q → q.id = i) ∧ Drafting job D (f.readQuestion r) x) := by
  refine Walk.weaken walk_getQuestion (fun _ hx => hx) ?_
  rintro r _ ⟨hId, y, ⟨hClean, hDraft, hFirst⟩, rfl⟩
  exact ⟨hId, hClean, hDraft, congrArg (·.readQuestion r) hFirst⟩

theorem drafting_optionsOf {is : List Id} : Walk pid job (Drafting job D f) (ask (.optionsOf is))
    (fun os => Drafting job D (f.readOptions os)) := by
  refine Walk.weaken walk_optionsOf (fun _ hx => hx) ?_
  rintro os _ ⟨y, ⟨hClean, hDraft, hFirst⟩, rfl⟩
  exact ⟨hClean, hDraft, congrArg (·.readOptions os) hFirst⟩

theorem may_setPositions (h : job.edits) {rows : List (Id × Int)} : job.may (.setPositions i rows) := by
  cases job <;> trivial

theorem drafting_shiftWithin (h : job.edits) {s : Span} {delta : Int} :
    Walk pid job (Drafting job D f) (shiftWithin s delta)
      (fun _ => Drafting job { D with shifted := D.shifted ++ [s.quizSetId] } f) := by
  refine Walk.bind (walk_quiet rfl) fun ids => ?_
  refine Walk.weaken (walk_shift h) (fun _ hx => hx) ?_
  rintro _ _ ⟨y, rows, hy, rfl⟩
  exact hy.append (may_setPositions h)

theorem drafting_loadOwnedQuiz {owner : Id} :
    Walk pid job (Drafting job D f) (loadOwnedQuiz owner i) (fun _ => Drafting job D f) := by
  refine Walk.weaken walk_loadOwnedQuiz (fun _ hx => hx) ?_
  rintro _ _ ⟨-, y, hy, rfl⟩
  exact hy

def Shifting (job : Job) (i : Id) (D : Draft) (f : First) (x : Own) : Prop :=
  ∃ is, (∀ j ∈ is, j = i) ∧ Drafting job { D with shifted := D.shifted ++ is } f x

theorem drafting_shiftSiblings (h : job.edits) {s : Span} {delta : Int} :
    Walk pid job (Drafting job D f) (shiftSiblings s delta)
      (fun _ => Shifting job s.quizSetId D f) := by
  refine Walk.bind (drafting_shiftWithin h) fun _ => ?_
  refine Walk.weaken (drafting_shiftWithin h) (fun _ hx => hx) fun _ x hx => ?_
  refine ⟨[s.quizSetId, s.quizSetId], fun j hj => by simpa using hj, ?_⟩
  simpa only [List.append_assoc, List.singleton_append] using hx

/-- What was read first has been read before. -/
def First.Kept (f f' : First) : Prop :=
  (∀ q, f.question = some q → f'.question = some q) ∧ ∀ os, f.options = some os → f'.options = some os

theorem First.kept_readQuestion (f : First) (r : Option Question) : f.Kept (f.readQuestion r) := by
  refine ⟨fun q hq => ?_, fun os hos => hos⟩
  simp [First.readQuestion, hq]

theorem First.Kept.readOptions {f f' : First} (h : f.Kept f') (os : List AnswerOption) :
    f.Kept (f'.readOptions os) := by
  refine ⟨h.1, fun os' hos' => ?_⟩
  simp [First.readOptions, h.2 os' hos']

theorem commits_hydrated (h : ∀ f' x, f.Kept f' → Drafting job D f' x → Ready job x) :
    Commits pid job (Drafting job D f) (do
      let row ← hydrated i
      ask .commit
      return row) := by
  have hRead : Walk pid job (Drafting job D f) (hydrated i)
      (fun _ x => ∃ f', f.Kept f' ∧ Drafting job D f' x) := by
    refine Walk.bind drafting_getQuestion fun r => ?_
    cases r with
    | none => exact Walk.raise
    | some question =>
      refine Walk.weaken (Walk.bind drafting_optionsOf fun os => Walk.pure fun x hx => ?_)
        (fun _ hx => hx.2) fun _ _ hx => hx
      exact ⟨_, (f.kept_readQuestion _).readOptions os, hx⟩
  refine Walk.commits hRead fun _ => Commits.ret (Commits.weaken walk_commit ?_)
  rintro x ⟨f', hKept, hx⟩
  exact h f' x hKept hx

theorem drafting_targetPosition (h : job.edits) {position : Option Int} :
    Walk pid job (Drafting job D f) (targetPosition i position) (fun _ => Shifting job i D f) := by
  have hNone : ∀ x, Drafting job D f x → Shifting job i D f x := by
    intro x hx
    refine ⟨[], fun _ hj => (List.not_mem_nil hj).elim, ?_⟩
    rw [List.append_nil]
    exact hx
  refine Walk.bind (walk_quiet rfl) fun last => ?_
  cases position with
  | none => exact Walk.pure hNone
  | some p =>
    dsimp only
    split
    · exact Walk.bind (drafting_shiftSiblings h) fun _ => Walk.pure fun _ hx => hx
    · exact Walk.pure hNone

theorem renders_cons {o : OptionCreate} {options : List OptionCreate} {row : AnswerOption}
    {rows : List AnswerOption} (hRow : row.questionId = i ∧ row.isCorrect = o.isCorrect)
    (h : Renders i options rows) : Renders i (o :: options) (row :: rows) := by
  unfold Renders at h ⊢
  rw [List.map_cons, List.map_cons, h, hRow.1, hRow.2]

theorem drafting_insertDrawn {owner quizSetId : Id} {payload : QuestionCreate} {scans : Nat}
    {options : List OptionCreate} (hJob : job = .addQuestion owner quizSetId payload scans) :
    Walk pid job (Drafting job D f) (insertDrawn i options) (fun _ x => ∃ rows, Renders i options rows ∧
      Drafting job { D with options := D.options ++ rows.map fun o => .insertOptions [o] } f x) := by
  induction options generalizing D with
  | nil =>
    refine Walk.pure fun x hx => ⟨[], rfl, ?_⟩
    rw [List.map_nil, List.append_nil]
    exact hx
  | cons o rest ih =>
    refine Walk.bind (walk_quiet rfl) fun drawn => ?_
    have hMay : ∀ rows, job.may (.insertOptions rows) := by
      intro rows
      rw [hJob]
      trivial
    refine Walk.bind (drafting_flush (hMay _)) fun _ => Walk.weaken ih (fun _ hx => hx) ?_
    rintro _ x ⟨rows, hRows, hx⟩
    let row : AnswerOption := ⟨drawn, i, o.position, o.body, o.isCorrect⟩
    refine ⟨row :: rows, renders_cons ⟨rfl, rfl⟩ hRows, ?_⟩
    simpa only [Draft.step, List.append_assoc, List.singleton_append, List.map_cons] using hx

theorem walk_addQuestion {owner quizSetId : Id} {payload : QuestionCreate} {scans : Nat}
    (hJob : job = .addQuestion owner quizSetId payload scans) :
    Commits pid job (Drafting job {} {}) (addQuestion owner quizSetId payload) := by
  have hEdits : job.edits := hJob ▸ trivial
  refine Walk.commits drafting_loadOwnedQuiz fun _ => ?_
  refine Walk.commits (drafting_targetPosition hEdits) fun position => ?_
  refine Commits.of_exists fun is => Commits.of_and fun hShifted => ?_
  refine Walk.commits (walk_quiet rfl) fun i => ?_
  refine Walk.commits (drafting_flush ?_) fun _ => ?_
  · rw [hJob]
    trivial
  refine Walk.commits (drafting_insertDrawn hJob) fun _ => ?_
  refine Commits.of_exists fun rows => Commits.of_and fun hRows => ?_
  refine commits_hydrated fun f' x _ hx => ⟨hx.1, ?_⟩
  subst hJob
  change AddDone quizSetId payload (draft x.tx)
  rw [hx.2.1]
  exact ⟨hShifted, _, rows, rfl, rfl, rfl, hRows, rfl⟩

theorem walk_drawOptions {options : List OptionCreate} : Walk pid job P (drawOptions i options)
    (fun rows x => Renders i options rows ∧ P x) := by
  induction options with
  | nil => exact Walk.pure fun x hx => ⟨rfl, hx⟩
  | cons o rest ih =>
    refine Walk.bind (walk_quiet rfl) fun drawn => ?_
    refine Walk.bind ih fun rows => Walk.pure fun x hx => ⟨renders_cons ⟨rfl, rfl⟩ hx.1, hx.2⟩

section

variable {owner questionId : Id} {payload : QuestionUpdate} {scans : Nat}

theorem over_empty (p : QuestionPatch) : QuestionPatch.over {} p = p := by
  simp [QuestionPatch.over]

theorem drafting_flushQuestion (hJob : job = .patchQuestion owner questionId payload scans) {q : Question}
    (hId : q.id = questionId) {changes : QuestionPatch} :
    Walk pid job (Drafting job D f) (flushQuestion q changes)
      (fun _ => Drafting job { D with patch := changes.over D.patch } f) := by
  unfold flushQuestion
  split
  next hEmpty =>
    rw [hEmpty, over_empty]
    exact Walk.pure fun _ hx => hx
  · refine drafting_flush ?_
    rw [hJob]
    exact hId

theorem shifting_flushQuestion (hJob : job = .patchQuestion owner questionId payload scans) {q : Question}
    (hId : q.id = questionId) {changes : QuestionPatch} :
    Walk pid job (Shifting job i D f) (flushQuestion q changes)
      (fun _ => Shifting job i { D with patch := changes.over D.patch } f) := by
  refine Walk.of_exists fun is => Walk.of_and fun hShifted => ?_
  refine Walk.weaken (drafting_flushQuestion hJob hId) (fun _ hx => hx) fun _ x hx => ?_
  exact ⟨is, hShifted, hx⟩

theorem drafting_moveQuestionTo (hJob : job = .patchQuestion owner questionId payload scans) {q : Question}
    (hId : q.id = questionId) {changes : QuestionPatch} {p : Int} :
    Walk pid job (Drafting job {} f) (moveQuestionTo q changes p) (fun _ => Shifting job q.quizSetId
      { patch := { changes with position := some p } } f) := by
  have hEdits : job.edits := hJob ▸ trivial
  have hMerged : QuestionPatch.over { position := some p }
      (QuestionPatch.over { changes with position := some parkPosition } {}) =
        { changes with position := some p } := by
    simp [QuestionPatch.over]
  rw [← hMerged]
  refine Walk.bind (drafting_flushQuestion hJob hId) fun _ => ?_
  split
  · exact Walk.bind (drafting_shiftSiblings hEdits) fun _ => shifting_flushQuestion hJob hId
  · exact Walk.bind (drafting_shiftSiblings hEdits) fun _ => shifting_flushQuestion hJob hId

theorem drafting_replaceOptions (hJob : job = .patchQuestion owner questionId payload scans)
    {rows : List AnswerOption} : Walk pid job (Drafting job D f) (replaceOptions questionId rows)
      (fun _ x => ∃ old : List AnswerOption, Drafting job { D with
        options := D.options ++ [.deleteOptions questionId (old.map (·.id)), .insertOptions rows] }
        (f.readOptions old) x) := by
  refine Walk.bind drafting_optionsOf fun old => ?_
  refine Walk.bind (drafting_flush ?_) fun _ => Walk.weaken (drafting_flush ?_) (fun _ hx => hx) ?_
  · rw [hJob]
    exact rfl
  · rw [hJob]
    trivial
  · intro _ x hx
    refine ⟨old, ?_⟩
    simpa only [Draft.step, List.append_assoc, List.singleton_append] using hx

theorem drafting_loadOwnedQuestion : Walk pid job (Drafting job D f) (loadOwnedQuestion owner i)
    (fun q x => q.id = i ∧ Drafting job D (f.readQuestion (some q)) x) := by
  refine Walk.bind drafting_getQuestion fun r => ?_
  cases r with
  | none => exact Walk.raise
  | some question =>
    refine Walk.of_and fun hId => ?_
    refine Walk.bind drafting_getQuiz fun parent => ?_
    cases parent with
    | none => exact Walk.raise
    | some parent =>
      dsimp only
      split
      · exact Walk.raise
      · exact Walk.pure fun _ hx => ⟨hId question rfl, hx⟩

theorem walk_finishUpdate (hJob : job = .patchQuestion owner questionId payload scans) {q : Question}
    (hId : q.id = questionId) {rest : QuestionPatch} (hAdded : D.added = []) (hOptions : D.options = [])
    (hShifted : (∀ j ∈ D.shifted, j = q.quizSetId) ∧ (moves payload q = none → D.shifted = []))
    (hRest : rest.over D.patch = { questionChanges payload q with position := moves payload q }) :
    Commits pid job (Drafting job D { question := some q }) (finishUpdate q payload rest) := by
  have hDone : ∀ {f' : First} {x : Own} {D' : Draft}, Drafting job D' f' x → f'.question = some q →
      D'.added = D.added → D'.shifted = D.shifted → D'.patch = rest.over D.patch →
      OptionsDone questionId f' D'.options payload.options → Ready job x := by
    intro f' x D' hx hQuestion hAdded' hShifted' hPatch hOptions'
    refine ⟨hx.1, ?_⟩
    subst hJob
    change PatchDone questionId payload x.first (draft x.tx)
    rw [hx.2.1, hx.2.2]
    refine ⟨q, hQuestion, hId, ?_, ?_, hAdded'.trans hAdded, hPatch.trans hRest, hOptions'⟩
    · rw [hShifted']
      exact hShifted.1
    · rw [hShifted']
      exact hShifted.2
  unfold finishUpdate
  cases hPayload : payload.options with
  | none =>
    refine Walk.commits (drafting_flushQuestion hJob hId) fun _ => commits_hydrated fun f' x hKept hx => ?_
    refine hDone hx (hKept.1 q rfl) rfl rfl rfl ?_
    rw [hPayload]
    exact hOptions
  | some options =>
    refine Walk.commits walk_drawOptions fun rows => Commits.of_and fun hRows => ?_
    refine Walk.commits (drafting_flushQuestion hJob hId) fun _ => ?_
    rw [hId] at hRows ⊢
    refine Walk.commits (drafting_replaceOptions hJob) fun _ => Commits.of_exists fun old => ?_
    refine commits_hydrated fun f' x hKept hx => ?_
    refine hDone hx (hKept.1 q rfl) rfl rfl rfl ?_
    rw [hPayload]
    refine ⟨old, rows, hKept.2 old rfl, hRows, ?_⟩
    rw [hOptions, List.nil_append]

theorem walk_updateQuestion (hJob : job = .patchQuestion owner questionId payload scans) :
    Commits pid job (Drafting job {} {}) (updateQuestion owner questionId payload) := by
  refine Walk.commits drafting_loadOwnedQuestion fun question => Commits.of_and fun hId => ?_
  dsimp only
  cases hMove : moves payload question with
  | none =>
    refine walk_finishUpdate hJob hId rfl rfl ⟨fun _ hj => (List.not_mem_nil hj).elim, fun _ => rfl⟩ ?_
    rw [hMove]
    simp [QuestionPatch.over, questionChanges]
  | some p =>
    refine Walk.commits (drafting_moveQuestionTo hJob hId) fun _ => ?_
    refine Commits.of_exists fun is => Commits.of_and fun hShifted => ?_
    refine walk_finishUpdate hJob hId rfl rfl ⟨hShifted, fun hNone => ?_⟩ ?_
    · rw [hMove] at hNone
      cases hNone
    · rw [hMove]
      exact over_empty _

end

theorem walk_deleteQuestion {owner questionId : Id} {scans : Nat}
    (hJob : job = .deleteQuestion owner questionId scans) :
    Commits pid job (Drafting job {} {}) (deleteQuestion owner questionId) := by
  have hEdits : job.edits := hJob ▸ trivial
  refine Walk.commits drafting_getQuestion fun r => ?_
  cases r with
  | none => exact Commits.raise
  | some question =>
    refine Commits.of_and fun hRead => ?_
    have hId : question.id = questionId := hRead question rfl
    refine Walk.commits drafting_optionsOf fun options => ?_
    refine Walk.commits drafting_getQuiz fun parent => ?_
    cases parent with
    | none => exact Commits.raise
    | some parent =>
      dsimp only
      split
      · exact Commits.raise
      refine Walk.commits (drafting_flush ?_) fun _ => ?_
      · rw [hJob]
        exact hId
      refine Walk.commits (drafting_flush ?_) fun _ => ?_
      · rw [hJob]
        exact hId
      refine Walk.commits (drafting_shiftSiblings hEdits) fun _ => ?_
      refine Commits.of_exists fun is => Commits.of_and fun hShifted => ?_
      refine Commits.weaken walk_commit fun x hx => ⟨hx.1, ?_⟩
      subst hJob
      change DeleteDone questionId x.first (draft x.tx)
      rw [hx.2.1, hx.2.2]
      exact ⟨rfl, by rw [← hId]; rfl, question, rfl, hId, hShifted⟩

end

theorem versionSet_append (i : Id) (ws ws' : List Write) :
    versionSet i (ws ++ ws') = (versionSet i ws' <|> versionSet i ws) := by
  induction ws with
  | nil => simp [versionSet]
  | cons wr ws ih =>
    cases wr with
    | updateQuiz j p =>
      simp only [List.cons_append, versionSet, ih]
      cases versionSet i ws' <;> rfl
    | _ => simpa only [List.cons_append, versionSet] using ih

theorem walk_upsertTags {names : List String} : Walk pid job P (upsertTags names) (fun _ => P) := by
  induction names with
  | nil => exact Walk.pure fun _ hx => hx
  | cons n rest ih =>
    refine Walk.bind (walk_quiet rfl) fun _ => ?_
    exact Walk.bind (walk_quiet rfl) fun _ => ih

theorem walk_resolveTags {names : List String} : Walk pid job P (resolveTags names) (fun _ => P) :=
  Walk.bind walk_upsertTags fun _ => Walk.pure fun _ hx => hx

theorem walk_replaceQuizTags {i : Id} {names : List String} (hMay : ∀ wr, wr.tagsOnly i → job.may wr)
    (hP : ∀ x wr, P x → wr.tagsOnly i → P { x with tx := x.tx ++ [wr] }) :
    Walk pid job P (replaceQuizTags i names) (fun _ => P) := by
  have hFlush : ∀ wr, wr.tagsOnly i → Walk pid job P (ask (.flush [wr])) (fun _ => P) := by
    intro wr hwr
    refine Walk.weaken (walk_flush fun wr' hwr' => ?_) (fun _ hx => hx) ?_
    · rw [List.mem_singleton.mp hwr']
      exact hMay wr hwr
    · rintro _ _ ⟨y, hy, rfl⟩
      exact hP y wr hy hwr
  refine Walk.bind (walk_quiet rfl) fun old => ?_
  refine Walk.bind (hFlush (.deleteTags i old) rfl) fun _ => ?_
  exact hFlush (.insertTags i names) rfl

/-- The transaction of `create_quiz_set` after its first statement. -/
def Creating (row : Quiz) (x : Own) : Prop :=
  ∃ rest, x.tx = .insertQuiz row :: rest ∧ ∀ wr ∈ rest, wr.tagsOnly row.id

theorem may_create {owner : Id} {payload : QuizSetCreate} {scans : Nat} {i : Id} {wr : Write}
    (h : wr.tagsOnly i) : (Job.create owner payload scans).may wr := by
  cases wr <;> trivial

theorem Creating.append {row : Quiz} {x : Own} {wr : Write} (h : Creating row x)
    (hwr : wr.tagsOnly row.id) : Creating row { x with tx := x.tx ++ [wr] } := by
  obtain ⟨rest, hTx, hRest⟩ := h
  refine ⟨rest ++ [wr], by simp [hTx], fun wr' hwr' => ?_⟩
  obtain hwr' | hwr' := List.mem_append.mp hwr'
  · exact hRest wr' hwr'
  · rw [List.mem_singleton.mp hwr']
    exact hwr

theorem Creating.ready {row : Quiz} {x : Own} {owner : Id} {payload : QuizSetCreate} {scans : Nat}
    (h : Creating row x) (hRow : row.isPublished = false) : Ready (.create owner payload scans) x := by
  obtain ⟨rest, hTx, hRest⟩ := h
  refine ⟨fun wr hwr => ?_, row, rest, hTx, hRest⟩
  rw [hTx] at hwr
  obtain rfl | hwr := List.mem_cons.mp hwr
  · exact hRow
  · exact may_create (hRest wr hwr)

theorem walk_createQuizSet {owner : Id} {payload : QuizSetCreate} {scans : Nat} :
    Commits pid (.create owner payload scans) (fun x => x.tx = []) (createQuizSet owner payload) := by
  refine Walk.commits (walk_quiet rfl) fun i => ?_
  refine Walk.commits (walk_quiet rfl) fun now => ?_
  let row : Quiz := ⟨i, owner, payload.title, payload.description, payload.visibility, false, 1, now⟩
  have hInsert : Walk pid (.create owner payload scans) (fun x => x.tx = [])
      (ask (.flush [.insertQuiz row])) (fun _ => Creating row) := by
    refine Walk.weaken (walk_flush fun wr hwr => ?_) (fun _ hx => hx) ?_
    · rw [List.mem_singleton.mp hwr]
      exact rfl
    · rintro _ _ ⟨y, hy, rfl⟩
      exact ⟨[], by simp [hy], fun wr hwr => by cases hwr⟩
  have hEnd : Commits pid (.create owner payload scans) (Creating row) (do
      ask .commit
      return row) := Commits.ret (Commits.weaken walk_commit fun _ hx => hx.ready rfl)
  refine Walk.commits hInsert fun _ => ?_
  split
  · refine Walk.commits walk_resolveTags fun names => ?_
    refine Walk.commits (walk_replaceQuizTags (fun wr hwr => may_create hwr) ?_) fun _ => hEnd
    exact fun x wr hx hwr => hx.append hwr
  · exact hEnd

/-- The statements so far are the request's own, and it has loaded this row. -/
def Loaded (job : Job) (z : Quiz) (x : Own) : Prop := Clean job x ∧ x.seen = some z

theorem walk_bump {z : Quiz} {p : QuizPatch} (hMay : job.may (.updateQuiz z.id p))
    (hVersion : p.version = some (job.bump z.version)) :
    Walk pid job (Loaded job z) (ask (.flush [.updateQuiz z.id p]))
      (fun _ x => Loaded job z x ∧ Bumped job z.id x) := by
  have hAll : ∀ wr ∈ [Write.updateQuiz z.id p], job.may wr := by
    intro wr hwr
    rw [List.mem_singleton.mp hwr]
    exact hMay
  refine Walk.weaken (walk_flush hAll) (fun _ hx => hx) ?_
  rintro _ _ ⟨y, ⟨hClean, hSeen⟩, rfl⟩
  refine ⟨⟨hClean.append hAll, hSeen⟩, z, hSeen, rfl, ?_⟩
  simp [versionSet_append, versionSet, hVersion]

theorem walk_flushQuiz_bump {z : Quiz} {p : QuizPatch} (hMay : job.may (.updateQuiz z.id p))
    (hVersion : p.version = some (job.bump z.version)) :
    Walk pid job (Loaded job z) (flushQuiz z.id p) (fun _ x => Loaded job z x ∧ Bumped job z.id x) := by
  unfold flushQuiz
  split
  next hEmpty =>
    rw [hEmpty] at hVersion
    cases hVersion
  · exact walk_bump hMay hVersion

theorem walk_updateQuizSet {owner i : Id} {payload : QuizSetUpdate} {scans : Nat} :
    Commits pid (.patch owner i payload scans) (Clean (.patch owner i payload scans))
      (updateQuizSet owner i payload) := by
  have hMay : ∀ {z : Quiz} (p : QuizPatch), z.id = i → p.isPublished = none →
      (Job.patch owner i payload scans).may (.updateQuiz z.id p) := fun _ hId hp => ⟨hId, hp⟩
  have hTags : ∀ wr : Write, wr.tagsOnly i → (Job.patch owner i payload scans).may wr := by
    intro wr hwr
    cases wr <;> first | exact hwr | cases hwr
  refine Walk.commits walk_loadOwnedQuiz fun z => ?_
  by_cases hId : z.id = i
  swap
  · exact Commits.of_false fun x hx => hId hx.1
  have hEnd : Commits pid (.patch owner i payload scans) (fun x => Loaded (.patch owner i payload scans) z x ∧
      Bumped (.patch owner i payload scans) z.id x) (do
        ask .commit
        return { quizChanges payload z with version := some (z.version + 1) }.patch z) := by
    refine Commits.ret (Commits.weaken walk_commit fun x hx => ?_)
    rw [hId] at hx
    exact ⟨hx.1.1, hx.2⟩
  have hStart : ∀ x, (z.id = i ∧ ∃ y, Clean (.patch owner i payload scans) y ∧
      x = { y with seen := some z }) → Loaded (.patch owner i payload scans) z x := by
    rintro _ ⟨-, y, hy, rfl⟩
    exact ⟨hy, rfl⟩
  refine Commits.weaken ?_ hStart
  dsimp only
  cases payload.tags with
  | none => exact Walk.commits (walk_flushQuiz_bump (hMay _ hId rfl) rfl) fun _ => hEnd
  | some tags =>
    have hChanges : Walk pid (.patch owner i payload scans) (Loaded (.patch owner i payload scans) z)
        (flushQuiz z.id (quizChanges payload z)) (fun _ => Loaded (.patch owner i payload scans) z) := by
      unfold flushQuiz
      split
      · exact Walk.pure fun _ hx => hx
      have hAll : ∀ wr ∈ [Write.updateQuiz z.id (quizChanges payload z)],
          (Job.patch owner i payload scans).may wr := by
        intro wr hwr
        rw [List.mem_singleton.mp hwr]
        exact hMay _ hId rfl
      refine Walk.weaken (walk_flush hAll) (fun _ hx => hx) ?_
      rintro _ _ ⟨y, ⟨hClean, hSeen⟩, rfl⟩
      exact ⟨hClean.append hAll, hSeen⟩
    refine Walk.commits hChanges fun _ => ?_
    refine Walk.commits walk_resolveTags fun names => ?_
    refine Walk.commits (walk_replaceQuizTags (fun wr hwr => hTags wr (hId ▸ hwr)) ?_) fun _ => ?_
    · rintro x wr ⟨hClean, hSeen⟩ hwr
      refine ⟨hClean.append fun wr' hwr' => ?_, hSeen⟩
      rw [List.mem_singleton.mp hwr']
      exact hTags wr (hId ▸ hwr)
    · exact Walk.commits (walk_flushQuiz_bump (hMay _ hId rfl) rfl) fun _ => hEnd

theorem loaded_getQuiz {i : Id} : Walk pid job (Clean job) (ask (.getQuiz i)) (fun r x =>
    ∀ z, r = some z → z.id = i ∧ Loaded job z x) := by
  refine Walk.weaken walk_getQuiz (fun _ hx => hx) ?_
  rintro r _ ⟨hId, y, hy, rfl⟩ z rfl
  exact ⟨hId z rfl, hy, rfl⟩

theorem walk_publishQuizSet {owner i : Id} {scans : Nat} :
    Commits pid (.publish owner i scans) (Clean (.publish owner i scans)) (publishQuizSet owner i) := by
  refine Walk.commits loaded_getQuiz fun r => ?_
  cases r with
  | none => exact Commits.raise
  | some z =>
    by_cases hId : z.id = i
    swap
    · exact Commits.of_false fun x hx => hId (hx z rfl).1
    have hQuestions : Walk pid (.publish owner i scans)
        (fun x => ∀ z', some z = some z' → z'.id = i ∧ Loaded (.publish owner i scans) z' x)
        (ask (.questionsOf i)) (fun qs x => Loaded (.publish owner i scans) z x ∧ x.loaded.1 = qs) := by
      refine Walk.weaken walk_questionsOf (fun _ hx => hx) ?_
      rintro qs _ ⟨y, hy, rfl⟩
      exact ⟨(hy z rfl).2, rfl⟩
    refine Walk.commits hQuestions fun questions => ?_
    have hOptions : Walk pid (.publish owner i scans)
        (fun x => Loaded (.publish owner i scans) z x ∧ x.loaded.1 = questions)
        (ask (.optionsOf (questions.map (·.id))))
        (fun os x => Loaded (.publish owner i scans) z x ∧ x.loaded = (questions, os)) := by
      refine Walk.weaken walk_optionsOf (fun _ hx => hx) ?_
      rintro os _ ⟨y, ⟨hy, rfl⟩, rfl⟩
      exact ⟨hy, rfl⟩
    refine Walk.commits hOptions fun options => ?_
    dsimp only
    split
    · exact Commits.raise
    refine Walk.commits (walk_quiet rfl) fun _ => ?_
    split
    · exact Commits.raise
    next hIssues =>
      refine Walk.commits (walk_quiet rfl) fun occurredAt => ?_
      refine Walk.commits (walk_quiet rfl) fun eventId => ?_
      refine Walk.commits (walk_flush fun wr hwr => ?_) fun _ => ?_
      · rw [List.mem_singleton.mp hwr]
        exact hId
      refine Walk.commits (walk_flush fun wr hwr => ?_) fun _ => ?_
      · rw [List.mem_singleton.mp hwr]
        trivial
      refine Commits.ret (Commits.weaken walk_commit ?_)
      rintro _ ⟨_, ⟨y, ⟨⟨hClean, hSeen⟩, hLoaded⟩, rfl⟩, rfl⟩
      refine ⟨(hClean.append ?_).append ?_, ⟨z, hSeen, hId, ?_⟩, ?_⟩
      · intro wr hwr
        rw [List.mem_singleton.mp hwr]
        exact hId
      · intro wr hwr
        rw [List.mem_singleton.mp hwr]
        trivial
      · simp [versionSet_append, versionSet, hId, Job.bump]
      · change validatePublish y.loaded.1 y.loaded.2 = []
        rw [hLoaded]
        exact not_not.mp hIssues

theorem walk_hide {i : Id} : Commits pid (.hide i) (Clean (.hide i)) (hide i) := by
  refine Walk.commits loaded_getQuiz fun r => ?_
  cases r with
  | none => exact Commits.raise
  | some z =>
    by_cases hId : z.id = i
    swap
    · exact Commits.of_false fun x hx => hId (hx z rfl).1
    refine Commits.weaken ?_ fun x hx => (hx z rfl).2
    refine Walk.commits (walk_bump ⟨hId, ?_⟩ rfl) fun _ => ?_
    · dsimp only
      split <;> simp
    refine Commits.ret (Commits.weaken walk_commit fun x hx => ?_)
    rw [hId] at hx
    exact ⟨hx.1.1, hx.2⟩

/-- Nothing is left to remove. -/
def Sweep.Settled (s : Sweep) : Prop := s = .idle ∨ s = .under [] []

theorem Sweep.Settled.shrink {s s' : Sweep} (h : s.Settled) (hs : s.Shrinks s') : s'.Settled := by
  obtain rfl | rfl := h
  · cases s' <;> first | exact .inl rfl | exact hs.elim
  · cases s' with
    | under owed returned =>
      rw [List.subset_nil.mp hs.1, List.subset_nil.mp hs.2]
      exact .inr rfl
    | _ => exact hs.elim

theorem settled_of_phase {s : Sweep} (h : s.phase = .idle) : s.Settled := by
  cases s <;> first | exact .inl rfl | cases h

def Sweeps (pid : Nat) (job : Job) (P : Sweep → Prop) (p : Coro α) (Q : α → Sweep → Prop) : Prop :=
  ∀ M : Mach, Narrows M → Triple M contract (fun w => w.sweep pid) pid job P p Q
    (fun s => Careful M → s.Settled)

/-- Between two calls of SCAN: the keys of the last answer are gone. -/
def Sweep.Between (cursor : Nat) (s : Sweep) : Prop :=
  s.returned = [] ∧ (cursor ≠ 0 → s.phase = .under)

theorem Sweep.Between.shrink {cursor : Nat} {s s' : Sweep} (h : s.Between cursor) (hs : s.Shrinks s') :
    s'.Between cursor := by
  cases s <;> cases s' <;> first | exact hs.elim | exact h | skip
  exact ⟨List.subset_nil.mp (h.1 ▸ hs.2), fun _ => rfl⟩

theorem sweeps_scan {cursor : Nat} : Sweeps pid job (Sweep.Between cursor)
    (ask (.scan cursor)) (fun r s => ∃ owed returned, s = .under owed returned ∧ returned ⊆ r.2 ∧
      (r.1 = 0 → owed = [])) := by
  rintro M ⟨G, hM⟩
  apply Triple.call
  · exact fun w v hRely hw => hw.shrink hRely.2
  rintro w ⟨hw, hPhase⟩
  refine ⟨hPhase, fun fresh d out hExec => ?_⟩
  have hOk : ∀ {a : Answer (.scan cursor)}, perform G w job pid (.scan cursor) d = some a →
      a.result = .ok (d.value, d.keys) ∧ ∃ owed, a.shared.sweep pid = .under owed d.keys ∧
        (d.value = 0 → owed = []) := by
    intro a ha
    obtain ⟨v, hScan, rfl⟩ := Option.map_eq_some_iff.mp ha
    obtain ⟨⟨-, hEnd⟩, hEq⟩ := Option.ite_none_right_eq_some.mp hScan
    refine ⟨rfl, _, ?_, hEnd⟩
    rw [← Option.some.inj hEq]
    simp only [Function.update_self, hw, List.nil_append]
  obtain ⟨-, hFine⟩ | ⟨hFail, rfl⟩ | ⟨hLost, a, -, rfl⟩ := faulty_cases (hM hExec)
  · obtain ⟨hRes, owed, hSweep, hEnd⟩ := hOk hFine
    rw [hRes]
    exact ⟨owed, d.keys, hSweep, List.Subset.refl _, hEnd⟩
  · intro hCareful
    rw [hCareful.scan hExec] at hFail
    cases hFail
  · intro hCareful
    rw [hCareful.scan hExec] at hLost
    cases hLost

theorem sweeps_unlink {next : Nat} {keys : List Key} : Sweeps pid job (fun s => ∃ owed returned,
      s = .under owed returned ∧ returned ⊆ keys ∧ (next = 0 → owed = [])) (ask (.unlink keys))
    (fun _ s => ∃ owed, s = .under owed [] ∧ (next = 0 → owed = [])) := by
  rintro M ⟨G, hM⟩
  apply Triple.call
  · rintro w v hRely ⟨owed, returned, hs, hSub, hEnd⟩
    have hShrinks := hRely.2
    rw [hs] at hShrinks
    cases hs' : v.sweep pid with
    | under owed' returned' =>
      rw [hs'] at hShrinks
      refine ⟨owed', returned', rfl, List.Subset.trans hShrinks.2 hSub, fun h0 => ?_⟩
      exact List.subset_nil.mp (hEnd h0 ▸ hShrinks.1)
    | _ =>
      rw [hs'] at hShrinks
      exact hShrinks.elim
  rintro w ⟨owed, returned, hs, hSub, hEnd⟩
  refine ⟨trivial, fun fresh d out hExec => ?_⟩
  obtain ⟨-, hFine⟩ | ⟨hFail, rfl⟩ | ⟨hLost, a, -, rfl⟩ := faulty_cases (hM hExec)
  · cases hFine
    refine ⟨owed.filter (· ∉ keys), ?_, fun h0 => ?_⟩
    · have hNone : returned.filter (· ∉ keys) = [] := by
        refine List.filter_eq_nil_iff.mpr fun k hk hNot => ?_
        exact of_decide_eq_true hNot (hSub hk)
      change (w.sweep pid).without keys = _
      rw [hs, Sweep.without, hNone]
    · rw [hEnd h0]
      rfl
  · intro hCareful
    rw [hCareful.unlink hExec] at hFail
    cases hFail
  · intro hCareful
    rw [hCareful.unlink hExec] at hLost
    cases hLost

theorem sweeps_invalidateFrom {n cursor total : Nat} : Sweeps pid job (Sweep.Between cursor)
    (invalidateFrom n cursor total) (fun _ s => s.Settled) := by
  intro M hM
  induction n generalizing cursor total with
  | zero =>
    obtain ⟨G, hM⟩ := hM
    apply Triple.call
    · exact fun w v hRely hw => hw.shrink hRely.2
    intro w _
    refine ⟨trivial, fun fresh d out hExec => ?_⟩
    obtain ⟨-, hOk⟩ | ⟨hFail, -⟩ | ⟨-, a, hOk, -⟩ := faulty_cases (hM hExec)
    · cases hOk
    · have hNone := hM hExec
      simp [exec, faulty, hFail, Op.fallible] at hNone
    · cases hOk
  | succ n ih =>
    refine Triple.bind (sweeps_scan M hM) fun r => ?_
    obtain ⟨next, keys⟩ := r
    have hEnd : Triple M contract (fun w => w.sweep pid) pid job
        (fun s => ∃ owed, s = .under owed [] ∧ (next = 0 → owed = []))
        (if next = 0 then pure (total + keys.length) else invalidateFrom n next (total + keys.length))
        (fun _ s => s.Settled) (fun s => Careful M → s.Settled) := by
      split
      next h0 =>
        refine Triple.pure ?_
        rintro _ ⟨owed, rfl, hOwed⟩
        rw [hOwed h0]
        exact .inr rfl
      · refine Triple.weaken ih ?_ (fun _ _ hs => hs) fun _ hs => hs
        rintro _ ⟨owed, rfl, -⟩
        exact ⟨rfl, fun _ => rfl⟩
    dsimp only
    split
    · exact Triple.bind (sweeps_unlink M hM) fun _ => hEnd
    next hEmpty =>
      refine Triple.weaken hEnd ?_ (fun _ _ hs => hs) fun _ hs => hs
      rintro _ ⟨owed, returned, rfl, hSub, hOwed⟩
      rw [not_not.mp hEmpty] at hSub
      exact ⟨owed, by rw [List.subset_nil.mp hSub], hOwed⟩

theorem sweeps_count {i : Id} :
    Sweeps pid job Sweep.Settled (ask (.countQuestions i)) (fun _ => Sweep.Settled) := by
  rintro M ⟨G, hM⟩
  apply Triple.call
  · exact fun w v hRely hw => hw.shrink hRely.2
  intro w hw
  refine ⟨trivial, fun fresh d out hExec => ?_⟩
  have hSame : out.shared = w := by
    obtain hEq | ⟨a, ha, -, hEq⟩ := faulty_shared (hM hExec)
    · exact hEq
    · cases ha
      exact hEq
  rw [hSame]
  cases out.result with
  | ok a => exact hw
  | error e => exact fun _ => hw

def Settles (pid : Nat) (job : Job) (P : World → Prop) (p : Coro α) : Prop :=
  ∀ M : Mach, Narrows M → Triple M contract id pid job P p (fun _ w => (w.sweep pid).Settled)
    (fun w => Careful M → (w.sweep pid).Settled)

theorem Commits.settles {p : Coro α} {f : α → Coro β} (hp : Commits pid job P p) (hDue : job.left = .due)
    (hf : ∀ a, Sweeps pid job (Sweep.Between 0) (f a) (fun _ => Sweep.Settled)) :
    Settles pid job (fun w => (w.own pid).phase = .idle ∧ P (w.own pid)) (p >>= f) := by
  intro M hM
  refine Triple.bind (Triple.weaken (hp M hM).whole (fun _ hw => hw) (fun _ _ hw => hw) ?_) fun a => ?_
  · exact fun w hw hCareful => settled_of_phase (hw hCareful)
  refine Triple.weaken (hf a M hM).whole (fun w hw => ?_) (fun _ _ hw => hw) fun _ hw => hw
  have hPhase : (w.sweep pid).phase = .due := hw.trans hDue
  refine ⟨?_, fun h0 => absurd rfl h0⟩
  cases hs : w.sweep pid <;> first | rfl | (rw [hs] at hPhase; cases hPhase)

theorem sweeps_done {n : Nat} {r : Reply} : Sweeps pid job (Sweep.Between 0) (do
    let _ ← invalidatePrefix n
    return r) (fun _ => Sweep.Settled) :=
  fun M hM => Triple.bind (sweeps_invalidateFrom M hM) fun _ => Triple.pure fun _ hs => hs

theorem walk_listQuizSets {viewer : Option Id} {f : Filter} :
    Walk pid job P (listQuizSets viewer f) (fun _ => P) := by
  refine Walk.bind (walk_quiet rfl) fun r => ?_
  cases r with
  | none =>
    refine Walk.bind (walk_quiet rfl) fun rows => ?_
    exact Walk.bind (walk_quiet rfl) fun _ => Walk.pure fun _ hx => hx
  | some hit => exact Walk.pure fun _ hx => hx

theorem settles_endpoint : Settles pid job (fun w => w.own pid = .none) (endpoint job) := by
  have hClean : Clean job .none := (drafting_none job).1
  have hStart : ∀ (P : Own → Prop) {p : Coro Reply}, P .none →
      Settles pid job (fun w => (w.own pid).phase = .idle ∧ P (w.own pid)) p →
      Settles pid job (fun w => w.own pid = .none) p := by
    intro P p hNone h M hM
    refine Triple.weaken (h M hM) (fun w hw => ?_) (fun _ _ hw => hw) fun _ hw => hw
    rw [show w.own pid = .none from hw]
    exact ⟨rfl, hNone⟩
  cases job with
  | list viewer f =>
    refine hStart _ hClean fun M hM => Triple.weaken (walk_listQuizSets M hM).whole (fun _ hw => hw) ?_ ?_
    · exact fun _ w hw => settled_of_phase hw.1
    · exact fun w hw hCareful => settled_of_phase (hw hCareful)
  | create owner payload scans =>
    exact hStart (fun x => x.tx = []) rfl (walk_createQuizSet.settles rfl fun _ => sweeps_done)
  | patch owner i payload scans =>
    refine hStart _ hClean (walk_updateQuizSet.settles rfl fun quiz M hM => ?_)
    refine Triple.bind (sweeps_invalidateFrom M hM) fun _ => ?_
    exact Triple.bind (sweeps_count M hM) fun _ => Triple.pure fun _ hs => hs
  | publish owner i scans => exact hStart _ hClean (walk_publishQuizSet.settles rfl fun _ => sweeps_done)
  | addQuestion owner i payload scans =>
    exact hStart _ (drafting_none _) ((walk_addQuestion rfl).settles rfl fun _ => sweeps_done)
  | patchQuestion owner i payload scans =>
    exact hStart _ (drafting_none _) ((walk_updateQuestion rfl).settles rfl fun _ => sweeps_done)
  | deleteQuestion owner i scans =>
    exact hStart _ (drafting_none _) ((walk_deleteQuestion rfl).settles rfl fun _ => sweeps_done)
  | hide i =>
    refine hStart _ hClean fun M hM => Triple.bind (Triple.weaken (walk_hide M hM).whole (fun _ hw => hw) ?_ ?_)
      fun version => Triple.pure fun _ hw => hw
    · exact fun _ w hw => settled_of_phase hw
    · exact fun w hw hCareful => settled_of_phase (hw hCareful)

theorem settles_request : Settles pid job (fun w => w.own pid = .none) (inSession (endpoint job)) := by
  intro M hM
  refine Triple.session (settles_endpoint M hM) ?_
  apply Triple.call
  · exact fun w v hRely hw hCareful => (hw hCareful).shrink hRely.2
  obtain ⟨G, hM⟩ := hM
  intro w hw
  refine ⟨trivial, fun fresh d out hExec => ?_⟩
  have hSame : out.shared.sweep pid = w.sweep pid := by
    obtain hEq | ⟨a, ha, -, hEq⟩ := faulty_shared (hM hExec)
    · rw [hEq]
    · cases ha
      rw [hEq]
      rfl
  cases out.result with
  | ok a => exact fun hCareful => hSame ▸ hw hCareful
  | error e => exact fun hCareful => hSame ▸ hw hCareful

end

theorem narrows_self (G : Trigram) : Narrows (authoring G) := ⟨G, fun h => h⟩

theorem wp_request (G : Trigram) {w : World} {pid : Nat} (job : Job) (h : w.own pid = .none) :
    wp (authoring G) contract pid job ((authoring G).body job) (contract.post pid job) w :=
  wp_mono (settles_request (authoring G) (narrows_self G) w h) fun _ _ _ => trivial

theorem sound (G : Trigram) : Sound (authoring G) contract where
  rely_trans _ _ _ _ h h' := ⟨h'.1.trans h.1, h.2.trans h'.2⟩
  rely_refl _ _ := ⟨rfl, Sweep.Shrinks.refl _⟩
  post_rely _ _ _ _ _ h _ := h
  exec w job pid n o d out hInv _ hPid hExec := by
    have hSpawned := exec_spawned n hExec
    refine ⟨?_, fun q _ hq => exec_rely_of_ne n hExec hq, fun t' hNew => ?_⟩
    · rw [hSpawned]
      intro q hq
      have hNe : q ≠ pid := Nat.ne_of_gt (lt_of_lt_of_le hPid hq)
      exact (exec_rely_of_ne n hExec hNe).1.trans (hInv q hq)
    · rw [hSpawned] at hNew
      cases hNew
  env w n e res hInv hEnv := by
    refine ⟨fun q hq => (env_rely n hEnv q).1.trans (hInv q (by omega)), fun q _ => env_rely n hEnv q, ?_⟩
    exact fun t' _ => wp_request G t' ((env_rely n hEnv n).1.trans (hInv n le_rfl))

theorem kept_initial (G : Trigram) : Kept (authoring G) contract initial :=
  ⟨fun _ _ => rfl, fun _ _ hp => by simp [initial] at hp⟩

theorem kept_of_reach {G : Trigram} {C : SysState → SysLabel → Prop} {S : SysState}
    (h : (authoring G).Reach C initial S) : Kept (authoring G) contract S :=
  (sound G).kept (kept_initial G) h

end LiveQuiz.Authoring
