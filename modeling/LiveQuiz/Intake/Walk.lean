import LiveQuiz.Intake.Contract

/-! # The requests file what they have to -/

namespace LiveQuiz.Intake

open Coroutine

set_option autoImplicit false

section

variable {w : World} {job : Job} {pid n q : Nat} {o : Op} {d : Decision} {out : Answer o} {wr : Write}

theorem own_write_self (w : World) (pid : Nat) (wr : Write) :
    (w.write pid wr).own pid = { w.own pid with tx := (w.own pid).tx ++ [wr] } := by
  simp [World.own, World.write]

theorem flushed_cases {out : Answer (.flush wr)} (h : flushed w pid wr = some out) :
    out.spawned = none ∧ ((out.shared = w.write pid wr ∧ out.result = .ok ()) ∨
      (out.shared = w ∧ ∃ e, out.result = .error e)) := by
  unfold flushed at h
  split at h
  · cases h
  split at h <;> cases h
  · exact ⟨rfl, .inr ⟨rfl, _, rfl⟩⟩
  · exact ⟨rfl, .inl ⟨rfl, rfl⟩⟩

theorem perform_spawned (h : perform w job pid o d = some out) : out.spawned = none := by
  cases o with
  | flush wr => exact (flushed_cases h).1
  | _ =>
    cases h
    rfl

theorem perform_own_of_ne (h : perform w job pid o d = some out) (hq : q ≠ pid) :
    out.shared.own q = w.own q := by
  cases o with
  | flush wr =>
    obtain ⟨-, ⟨hEq, -⟩ | ⟨hEq, -⟩⟩ := flushed_cases h
    · rw [hEq]
      simp [World.own, World.write, hq]
    · rw [hEq]
  | getQuiz i =>
    cases h
    simp [World.own, hq]
  | questionsOf i =>
    cases h
    simp [World.own, hq]
  | optionsOf is =>
    cases h
    simp [World.own, hq]
  | commit =>
    cases h
    simp [World.own, World.commit, World.endTx, hq]
  | rollback =>
    cases h
    simp [World.own, World.endTx, hq]
  | _ =>
    cases h
    rfl

theorem perform_db (ho : o ≠ .commit) (h : perform w job pid o d = some out) :
    out.shared.db = w.db ∧ out.shared.log = w.log := by
  cases o with
  | flush wr =>
    obtain ⟨-, ⟨hEq, -⟩ | ⟨hEq, -⟩⟩ := flushed_cases h
    · rw [hEq]
      exact ⟨rfl, rfl⟩
    · rw [hEq]
      exact ⟨rfl, rfl⟩
  | commit => exact absurd rfl ho
  | _ =>
    cases h
    exact ⟨rfl, rfl⟩

end

section

variable {T : Text} {policy : Policy} {job : Job} {pid : Nat} {α β : Type} {P : Own → Prop} {o : Op}

abbrev Walk (T : Text) (policy : Policy) (pid : Nat) (job : Job) (P : Own → Prop) (p : Coro α)
    (Q : α → Own → Prop) : Prop :=
  Triple (intake T policy) (contract T policy) (World.own pid) pid job P p Q (fun _ => True)

theorem walk_call {Q : o.Res → Own → Prop} (hReq : ∀ w : World, P (w.own pid) → Req T policy pid job w o)
    (h : ∀ w d a r, P (w.own pid) → perform w job pid o d = some a → a.result = .ok r →
      Q r (a.shared.own pid)) : Walk T policy pid job P (ask o) Q := by
  refine Triple.call (fun w v hRely hP => ?_) fun w hP => ⟨hReq w hP, fun n d out hOut => ?_⟩
  · have hSame : v.own pid = w.own pid := hRely
    rw [hSame]
    exact hP
  · cases hRes : out.result with
    | error e => trivial
    | ok r =>
      obtain ⟨-, hPerform⟩ := faulty_ok hOut hRes
      exact h w d out r hP hPerform hRes

/-- The calls that leave what a program has read and written as it is. -/
def Op.quiet : Op → Bool
  | .rateAcquire _ _ _ | .utcnow | .nextId => true
  | _ => false

theorem walk_quiet (ho : o.quiet = true) : Walk T policy pid job P (ask o) (fun _ => P) := by
  refine walk_call (fun _ _ => ?_) fun _ _ _ _ hP h _ => ?_
  · cases o with
    | commit => cases ho
    | _ => trivial
  · cases o with
    | rateAcquire key capacity cost =>
      cases h
      exact hP
    | utcnow =>
      cases h
      exact hP
    | nextId =>
      cases h
      exact hP
    | _ => cases ho

theorem walk_flush {wr : Write} {Q : Own → Prop} (hQ : ∀ x, P x → Q { x with tx := x.tx ++ [wr] }) :
    Walk T policy pid job P (ask (.flush wr)) (fun _ => Q) := by
  refine walk_call (fun _ _ => trivial) fun w d a r hP h hRes => ?_
  obtain ⟨-, ⟨hEq, -⟩ | ⟨-, e, hErr⟩⟩ := flushed_cases h
  · rw [hEq, own_write_self]
    exact hQ _ hP
  · rw [hErr] at hRes
    cases hRes

theorem walk_commit (h : ∀ x, P x → Ready T policy job x) :
    Walk T policy pid job P (ask .commit) (fun _ _ => True) :=
  walk_call (fun _ hP => h _ hP) fun _ _ _ _ _ _ _ => trivial

/-- The transaction has filed the contents, on the quiz that it has read. -/
structure Progress (seen : Option Authoring.Quiz) (loaded : List Question × List AnswerOption)
    (cs : List Content) (x : Own) : Prop where
  seen : x.seen = seen
  loaded : x.loaded = loaded
  filed : FiledIn cs [] x.tx

variable {seen : Option Authoring.Quiz} {loaded : List Question × List AnswerOption} {cs : List Content}

theorem walk_file {content : Content} {payload : Id → Payload}
    (h : ∀ i eventId now, Announces ⟨i, content, .pending⟩ ⟨eventId, "moderation", i, payload i, now⟩)
    {f : Id → Coro α} {Q : α → Own → Prop}
    (hf : ∀ i, Walk T policy pid job (Progress seen loaded (cs ++ [content])) (f i) Q) :
    Walk T policy pid job (Progress seen loaded cs)
      (do
        let id ← ask .nextId
        ask (.flush (.report ⟨id, content, .pending⟩))
        registerEvent "moderation" id (payload id)
        f id) Q := by
  refine Triple.bind (walk_quiet rfl) fun i => ?_
  refine Triple.bind (Q := fun _ x => ∃ y, Progress seen loaded cs y ∧
    x = { y with tx := y.tx ++ [.report ⟨i, content, .pending⟩] }) (walk_flush fun x hx => ⟨x, hx, rfl⟩) fun _ => ?_
  refine Triple.bind (Q := fun _ => Progress seen loaded (cs ++ [content])) ?_ fun _ => hf i
  refine Triple.bind (walk_quiet rfl) fun eventId => Triple.bind (walk_quiet rfl) fun now => walk_flush ?_
  rintro _ ⟨y, hy, rfl⟩
  refine ⟨hy.seen, hy.loaded, ?_⟩
  have hBoth := hy.filed.append (filed_report (h i eventId now))
  rwa [List.append_nil, show ∀ a b : Write, y.tx ++ [a, b] = y.tx ++ [a] ++ [b] by simp] at hBoth

theorem walk_persistFlags {room user quiz : Option Id} {source : String} (flags : List Flag) :
    Walk T policy pid job (Progress seen loaded cs) (persistFlags room user quiz source flags)
      (fun _ => Progress seen loaded (cs ++ flags.map (findingContent room user quiz source))) := by
  induction flags generalizing cs with
  | nil =>
    refine Triple.pure fun x hx => ?_
    rw [List.map_nil, List.append_nil]
    exact hx
  | cons f flags ih =>
    refine walk_file (fun i eventId now => ⟨rfl, rfl, .inr ⟨room, user, quiz, source, f, rfl, rfl⟩⟩) fun i => ?_
    have hRest := @ih (cs ++ [findingContent room user quiz source f])
    rw [List.append_assoc] at hRest
    exact hRest

theorem walk_createReport {reporter : Option Id} {host : String} {p : ReportCreate} :
    Walk T policy pid (.createReport reporter host p) (Progress none ([], []) []) (createReport reporter host p)
      (fun _ _ => True) := by
  refine Triple.bind (walk_quiet rfl) fun verdict => ?_
  obtain ⟨allowed, retryMs⟩ := verdict
  cases allowed with
  | false => exact Triple.raise fun _ _ => trivial
  | true =>
    simp only [Bool.not_true, Bool.false_eq_true, if_false]
    by_cases hCount : p.setCount = 1
    swap
    · rw [if_pos hCount]
      exact Triple.raise fun _ _ => trivial
    rw [if_neg (not_not.mpr hCount)]
    refine walk_file (fun i eventId now => ⟨rfl, rfl, .inl ⟨reporter, p, rfl, rfl⟩⟩) fun i => ?_
    refine Triple.bind (walk_commit fun x hx => ?_) fun _ => Triple.pure fun _ _ => trivial
    exact ⟨hx.filed, hCount⟩

theorem walk_getQuiz {i : Id} :
    Walk T policy pid job (Progress none ([], []) []) (ask (.getQuiz i))
      (fun z x => Progress z ([], []) [] x ∧ ∀ r, z = some r → r.id = i) := by
  refine walk_call (fun _ _ => trivial) fun w d a r hP h hRes => ?_
  cases h
  cases hRes
  refine ⟨⟨?_, hP.loaded, hP.filed⟩, fun z hz => ?_⟩
  · simp [World.own]
  · simpa using List.find?_some hz

theorem walk_questionsOf {i : Id} :
    Walk T policy pid job (Progress seen ([], []) []) (ask (.questionsOf i))
      (fun qs => Progress seen (qs, []) []) := by
  refine walk_call (fun _ _ => trivial) fun w d a r hP h hRes => ?_
  cases h
  cases hRes
  exact ⟨hP.seen, by simp [World.own], hP.filed⟩

theorem walk_optionsOf {is : List Id} {qs : List Question} :
    Walk T policy pid job (Progress seen (qs, []) []) (ask (.optionsOf is))
      (fun os => Progress seen (qs, os) []) := by
  refine walk_call (fun _ _ => trivial) fun w d a r hP h hRes => ?_
  cases h
  cases hRes
  have hLoaded : (w.loaded pid).1 = qs := congrArg Prod.fst hP.loaded
  exact ⟨hP.seen, by simp [World.own, hLoaded], hP.filed⟩

theorem Progress.ready {quiz : Authoring.Quiz} {questions : List Question} {options : List AnswerOption}
    {x : Own} (h : Progress (some quiz) (questions, options)
      ((flatFlags T policy (fieldsToScan quiz questions options)).map
        (findingContent none none (some quiz.id) "quiz.publish")) x)
    {owner eventId : Id} {patch : Authoring.QuizPatch} {now : Micros} (hOwner : quiz.ownerId = owner)
    (hIssues : Authoring.validatePublish questions options = []) :
    Ready T policy (.publish owner quiz.id) { x with
      tx := x.tx ++ [.updateQuiz quiz.id patch] ++
        [.event ⟨eventId, "quiz_set", quiz.id,
          .quizPublished quiz.id (quiz.version + 1) owner quiz.title, now⟩] } := by
  have hSeen : x.seen = some quiz := h.seen
  have hLoaded : x.loaded = (questions, options) := h.loaded
  refine ⟨?_, ⟨quiz, hSeen, rfl, hOwner, ?_⟩⟩
  · have hBoth := h.filed.append
      (filed_publish quiz.id eventId patch ⟨quiz.id, quiz.version + 1, owner, quiz.title⟩ now)
    simp only [Own.entry, Entry.filed, Entry.published, hSeen, hLoaded]
    simpa using hBoth
  · change Authoring.validatePublish x.loaded.1 x.loaded.2 = []
    rw [hLoaded]
    exact hIssues

theorem walk_publishQuizSet {owner i : Id} :
    Walk T policy pid (.publish owner i) (Progress none ([], []) []) (publishQuizSet T policy owner i)
      (fun _ _ => True) := by
  refine Triple.bind walk_getQuiz fun z => ?_
  cases z with
  | none => exact Triple.raise fun _ _ => trivial
  | some quiz =>
    by_cases hId : quiz.id = i
    swap
    · exact fun s hs => absurd (hs.2 quiz rfl) hId
    have hQuestions : Walk T policy pid (.publish owner i)
        (fun x => Progress (some quiz) ([], []) [] x ∧ ∀ r, some quiz = some r → r.id = i)
        (ask (.questionsOf i)) (fun qs => Progress (some quiz) (qs, []) []) :=
      walk_questionsOf.weaken (fun _ hx => hx.1) (fun _ _ => id) fun _ => id
    refine Triple.bind hQuestions fun questions => Triple.bind walk_optionsOf fun options => ?_
    by_cases hOwner : quiz.ownerId = owner
    swap
    · dsimp only
      rw [if_pos hOwner]
      exact Triple.raise fun _ _ => trivial
    dsimp only
    rw [if_neg (not_not.mpr hOwner)]
    refine Triple.bind (walk_persistFlags _) fun _ => ?_
    by_cases hIssues : Authoring.validatePublish questions options = []
    swap
    · rw [if_pos hIssues]
      exact Triple.raise fun _ _ => trivial
    rw [if_neg (not_not.mpr hIssues)]
    refine Triple.bind (walk_quiet rfl) fun now => Triple.bind (walk_quiet rfl) fun eventId => ?_
    refine Triple.bind (Q := fun _ x => ∃ y patch, Progress (some quiz) (questions, options)
      ((flatFlags T policy (fieldsToScan quiz questions options)).map
        (findingContent none none (some quiz.id) "quiz.publish")) y ∧
      x = { y with tx := y.tx ++ [.updateQuiz quiz.id patch] }) (walk_flush fun x hx => ⟨x, _, hx, rfl⟩) fun _ => ?_
    refine Triple.bind (Q := fun _ => Ready T policy (.publish owner i)) (walk_flush ?_) fun _ =>
      Triple.bind (walk_commit fun _ hx => hx) fun _ => Triple.pure fun _ _ => trivial
    rintro _ ⟨y, patch, hy, rfl⟩
    subst hId
    exact hy.ready hOwner hIssues

theorem walk_inSession {p : Coro Nat} (hp : Walk T policy pid job P p (fun _ _ => True)) :
    Walk T policy pid job P (inSession p) (fun _ _ => True) := by
  refine Triple.session hp ?_
  exact walk_call (fun _ _ => trivial) fun _ _ _ _ _ _ _ => trivial

theorem wp_jobBody {w : World} (hOwn : w.own pid = ⟨[], none, ([], [])⟩) :
    wp (intake T policy) (contract T policy) pid job (jobBody T policy job)
      ((contract T policy).post pid job) w := by
  have hStart : Progress none ([], []) [] (w.own pid) := by
    rw [hOwn]
    exact ⟨rfl, rfl, Filed.nil⟩
  have hWalk : Walk T policy pid job (Progress none ([], []) []) (jobBody T policy job) (fun _ _ => True) := by
    cases job with
    | createReport reporter host p => exact walk_inSession walk_createReport
    | publish owner i => exact walk_inSession walk_publishQuizSet
  exact wp_mono (hWalk w hStart) fun _ _ _ => trivial

theorem Inv.commit {w : World} {n : Nat} (h : Inv T policy n w) (hLt : pid < n)
    (hReady : Ready T policy job (w.own pid)) : Inv T policy n (w.commit job pid) where
  unstarted q hq := by
    have hNe : q ≠ pid := by omega
    exact (perform_own_of_ne (o := .commit) (d := {}) rfl hNe).trans (h.unstarted q hq)
  filed := by
    have hBoth := h.filed.applyAll hReady.1
    simp only [World.commit, List.flatMap_append, List.flatMap_cons, List.flatMap_nil, List.append_nil]
    exact hBoth
  admitted e he := by
    obtain hOld | hNew := List.mem_append.mp he
    · exact h.admitted e hOld
    · cases List.mem_singleton.mp hNew
      exact hReady.2

theorem Inv.same {w v : World} {n : Nat} (h : Inv T policy n w) (hOwn : ∀ q, n ≤ q → v.own q = w.own q)
    (hDb : v.db = w.db) (hLog : v.log = w.log) : Inv T policy n v where
  unstarted q hq := (hOwn q hq).trans (h.unstarted q hq)
  filed := by
    rw [hDb, hLog]
    exact h.filed
  admitted e he := by
    rw [hLog] at he
    exact h.admitted e he

theorem sound (T : Text) (policy : Policy) : Sound (intake T policy) (contract T policy) where
  rely_trans _ _ _ _ h h' := h'.trans h
  rely_refl _ _ := rfl
  post_rely _ _ _ _ _ _ _ := trivial
  exec w job pid n o d out hInv hReq hLt hExec := by
    have hNone : out.spawned = none := faulty_spawned hExec fun _ => perform_spawned
    have hOthers : ∀ q, q ≠ pid → out.shared.own q = w.own q := by
      intro q hq
      obtain hSame | ⟨a, ha, -, hShared⟩ := faulty_shared hExec
      · rw [hSame]
      · rw [hShared]
        exact perform_own_of_ne ha hq
    rw [hNone]
    refine ⟨?_, fun q _ hq => hOthers q hq, fun t ht => by cases ht⟩
    obtain hSame | ⟨a, ha, -, hShared⟩ := faulty_shared hExec
    · rw [hSame]
      exact hInv
    · by_cases hCommit : o = .commit
      · subst hCommit
        cases ha
        rw [hShared]
        exact hInv.commit hLt hReq
      · obtain ⟨hDb, hLog⟩ := perform_db hCommit ha
        rw [← hShared] at hDb hLog
        exact hInv.same (fun q hq => hOthers q (by omega)) hDb hLog
  env w n e out hInv hEnv := by
    cases e with
    | tick dt =>
      cases hEnv
      exact ⟨hInv.same (fun _ _ => rfl) rfl rfl, fun _ _ => rfl, fun t ht => by cases ht⟩
    | request j =>
      cases hEnv
      refine ⟨⟨fun q hq => hInv.unstarted q (by omega), hInv.filed, hInv.admitted⟩, fun _ _ => rfl, fun t ht => ?_⟩
      cases ht
      exact wp_jobBody (hInv.unstarted n (le_refl n))
    | put users rooms quiz =>
      cases hEnv
      exact ⟨⟨hInv.unstarted, hInv.filed, hInv.admitted⟩, fun _ _ => rfl, fun t ht => by cases ht⟩
    | decide i status =>
      cases hEnv
      exact ⟨⟨hInv.unstarted, hInv.filed.decide i status, hInv.admitted⟩, fun _ _ => rfl, fun t ht => by cases ht⟩

theorem kept_of_reach {C : SysState → SysLabel → Prop} {S : SysState}
    (h : (intake T policy).Reach C initial S) : Kept (intake T policy) (contract T policy) S := by
  have hStart : Kept (intake T policy) (contract T policy) initial :=
    ⟨⟨fun _ _ => rfl, Filed.nil, fun _ he => by cases he⟩, fun _ _ hp => by cases hp⟩
  exact (sound T policy).kept hStart h

end

end LiveQuiz.Intake
