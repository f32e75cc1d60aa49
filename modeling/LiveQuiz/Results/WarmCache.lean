import LiveQuiz.Results.AtMostOnce

/-! # The snapshot of a finished match

The handler of MatchFinished flushes what the worker has buffered and counts the answers
in ClickHouse. It counts all answers of the match if the worker has taken up all of them
by then; answers and match events are on different partitions, so nothing makes it.
-/

namespace LiveQuiz.Stream

open Coroutine

set_option autoImplicit false

def answeredMatch (L : Outside) (env : Envelope) : Option Int :=
  if env.eventType ∈ answerEventTypes then
    match optInt L (env.payload.get "match_id") with
    | .ok found => found
    | .error _ => none
  else none

/-- The events of the answers to a match, each once. -/
def answersOnLog (L : Outside) (log : List (TopicPartition × Bytes)) (m : Int) : List Int :=
  (((log.filterMap fun x => storable L x.2).filter fun env => answeredMatch L env = some m).map
    (·.eventId)).dedup

def finishedOnLog (L : Outside) (log : List (TopicPartition × Bytes)) (m : Int) : Bool :=
  log.any fun x => (storable L x.2).any fun env => finishedMatch L env = some m

/-- A snapshot is stored only when all answers of its match that are on the log have
been claimed. -/
def warmOp (L : Outside) (w : World) (o : Op) (d : Decision) : Bool :=
  carefulOp w o d &&
    match o with
    | .setCache m _ => (answersOnLog L w.log m).all (· ∈ w.seen)
    | _ => true

/-- An answer has its four ids, and after the end of the match only answers that were
there before are published again. -/
def warmMessage (L : Outside) (w : World) (env : Envelope) : Bool :=
  match answeredMatch L env with
  | some m => (rowsOf L env).toOption.any (fun rows => rows.length = 2) &&
    (!finishedOnLog L w.log m || env.eventId ∈ answersOnLog L w.log m)
  | none => true

def warmEnv (L : Outside) (w : World) (e : EnvAction) : Bool :=
  carefulEnv L w e && Once.keepsClaims w e &&
    match e with
    | .produce _ value => (storable L value).all (warmMessage L w)
    | _ => true

section

variable {L : Outside} {w w' : World} {pid n : Nat} {log : List (TopicPartition × Bytes)}

theorem mem_answersOnLog {m i : Int} :
    i ∈ answersOnLog L log m ↔ ∃ x ∈ log, ∃ env, storable L x.2 = some env ∧
      answeredMatch L env = some m ∧ env.eventId = i := by
  simp only [answersOnLog, List.mem_dedup, List.mem_map, List.mem_filter, List.mem_filterMap,
    decide_eq_true_eq]
  constructor
  · rintro ⟨env, ⟨⟨x, hx, hEnv⟩, hMatch⟩, hId⟩
    exact ⟨x, hx, env, hEnv, hMatch, hId⟩
  · rintro ⟨x, hx, env, hEnv, hMatch, hId⟩
    exact ⟨env, ⟨⟨x, hx, hEnv⟩, hMatch⟩, hId⟩

theorem finishedOnLog_iff {m : Int} : finishedOnLog L w.log m = true ↔ Finished L w m := by
  simp only [finishedOnLog, Finished, List.any_eq_true, Option.any_eq_true, decide_eq_true_eq]

theorem answerEventsRow_ids {env : Envelope} {m r p q : Int} {row : AnswerEventsRow}
    (h : answerEventsRow L env m r p q = .ok row) : row.eventId = env.eventId ∧ row.matchId = m := by
  refine ⟨Once.answer_eventId h, ?_⟩
  unfold answerEventsRow at h
  simp only [bind, Except.bind, pure, Except.pure] at h
  repeat' split at h
  all_goals cases h
  all_goals rfl

theorem rowsOf_cases {env : Envelope} {rows : List (String × Row)} (h : rowsOf L env = .ok rows) :
    ∃ raw, rows = [(eventsRawTable, .raw raw)] ∨
      ∃ row m, rows = [(eventsRawTable, .raw raw), (answerEventsTable, .answer row)] ∧
        answeredMatch L env = some m ∧ row.matchId = m ∧ row.eventId = env.eventId := by
  unfold rowsOf at h
  cases hRaw : envelopeToRawRow L env with
  | error e => simp [hRaw, bind, Except.bind] at h
  | ok raw =>
    refine ⟨raw, ?_⟩
    simp only [hRaw, bind, Except.bind] at h
    split at h
    next hType =>
      split at h
      next m r p q hIds =>
        cases hRow : answerEventsRow L env m r p q with
        | error e => simp [hRow] at h
        | ok row =>
          simp only [hRow, pure, Except.pure, Except.ok.injEq] at h
          obtain ⟨hEvent, hMatch⟩ := answerEventsRow_ids hRow
          refine .inr ⟨row, m, h.symm, ?_, hMatch, hEvent⟩
          rw [answeredMatch, if_pos hType, (envelopeToRawRow_ids hRaw).1]
          exact congrArg Prod.fst hIds
      · simp only [pure, Except.pure, Except.ok.injEq] at h
        exact .inl h.symm
    · simp only [pure, Except.pure, Except.ok.injEq] at h
      exact .inl h.symm

def answersIn (rows : List (String × Row)) (m : Int) : List AnswerEventsRow :=
  rows.filterMap fun
    | (table, .answer row) => if table = answerEventsTable ∧ row.matchId = m then some row else none
    | _ => none

theorem mem_answersIn {rows : List (String × Row)} {m : Int} {row : AnswerEventsRow} :
    row ∈ answersIn rows m ↔ (answerEventsTable, Row.answer row) ∈ rows ∧ row.matchId = m := by
  rw [answersIn, List.mem_filterMap]
  constructor
  · rintro ⟨⟨table, x⟩, hx, hRow⟩
    cases x with
    | raw r => cases hRow
    | answer r =>
      simp only [Option.ite_none_right_eq_some, Option.some.injEq] at hRow
      obtain ⟨⟨rfl, hMatch⟩, rfl⟩ := hRow
      exact ⟨hx, hMatch⟩
  · rintro ⟨hx, hMatch⟩
    exact ⟨_, hx, by simp [hMatch]⟩

theorem count_answersIn (rows : List (String × Row)) (m i : Int) :
    ((answersIn rows m).map (·.eventId)).count i ≤ tally answerEventsTable i rows := by
  induction rows with
  | nil => exact Nat.le_refl _
  | cons x rows ih =>
    obtain ⟨table, x⟩ := x
    have hTally : tally answerEventsTable i ((table, x) :: rows) = tally answerEventsTable i rows +
        if table = answerEventsTable ∧ x.eventId = i then 1 else 0 := by
      simp only [tally, List.countP_cons, decide_eq_true_eq]
    rw [hTally]
    cases x with
    | raw r => exact Nat.le_add_right_of_le ih
    | answer r =>
      by_cases hOwn : table = answerEventsTable ∧ r.matchId = m
      · have hCons : answersIn ((table, .answer r) :: rows) m = r :: answersIn rows m := by
          simp [answersIn, hOwn]
        rw [hCons, List.map_cons, List.count_cons]
        by_cases hi : r.eventId = i
        · simp only [hi, beq_self_eq_true, if_true, hOwn.1, Row.eventId, and_self]
          omega
        · simp only [beq_iff_eq, hi, if_false]
          omega
      · have hSkip : answersIn ((table, .answer r) :: rows) m = answersIn rows m := by
          simp only [answersIn, List.filterMap_cons, if_neg hOwn]
        rw [hSkip]
        omega

theorem answersIn_perm (hInv : Inv L w) (hOnce : Once.Inv w) {m : Int}
    (hWritten : ∀ i ∈ answersOnLog L w.log m, ∃ x ∈ w.log, ∃ env, storable L x.2 = some env ∧
      answeredMatch L env = some m ∧ env.eventId = i ∧ Written L w env)
    (hShape : ∀ x ∈ w.log, ∀ env, storable L x.2 = some env → answeredMatch L env = some m →
      ∀ rows, rowsOf L env = .ok rows → rows.length = 2) :
    ((answersIn w.inserted m).map (·.eventId)).Perm (answersOnLog L w.log m) := by
  have hNodup : ((answersIn w.inserted m).map (·.eventId)).Nodup := by
    apply List.nodup_iff_count_le_one.mpr
    intro i
    have hWithin := hOnce.within answerEventsTable i
    have hOne : (if i ∈ w.seen then 1 else 0) ≤ 1 := by split <;> omega
    have hCount := count_answersIn w.inserted m i
    omega
  apply (List.perm_ext_iff_of_nodup hNodup (List.nodup_dedup _)).mpr
  intro i
  constructor
  · intro hi
    obtain ⟨row, hRow, rfl⟩ := List.mem_map.mp hi
    obtain ⟨hIn, hMatch⟩ := mem_answersIn.mp hRow
    obtain ⟨x, hx, env, rows, hEnv, hRows, hMem⟩ := hInv.genuine _ (.inl hIn)
    obtain ⟨raw, rfl | ⟨row', m', rfl, hAnswered, hMatch', hEvent⟩⟩ := rowsOf_cases hRows
    · simp at hMem
    · simp only [List.mem_cons, Prod.mk.injEq, reduceCtorEq, and_false, Row.answer.injEq, true_and,
        List.not_mem_nil, or_false, false_or] at hMem
      subst hMem
      refine mem_answersOnLog.mpr ⟨x, hx, env, hEnv, ?_, hEvent.symm⟩
      rw [hAnswered, ← hMatch', hMatch]
  · intro hi
    obtain ⟨x, hx, env, hEnv, hAnswered, hId, rows, hRows, hIn⟩ := hWritten i hi
    obtain ⟨raw, rfl | ⟨row, m', rfl, hAnswered', hMatch, hEvent⟩⟩ := rowsOf_cases hRows
    · exact absurd (hShape x hx env hEnv hAnswered _ hRows) (by simp)
    · rw [hAnswered] at hAnswered'
      cases hAnswered'
      refine List.mem_map.mpr ⟨row, mem_answersIn.mpr ⟨hIn _ (by simp), hMatch⟩, ?_⟩
      rw [hEvent, hId]

/-- What the condition keeps up: no merge has dropped a row, answers have their rows, and
a snapshot counts all answers to its match, which has ended. -/
structure Warmed (L : Outside) (w : World) : Prop where
  tables : w.tables = w.inserted
  shape : ∀ x ∈ w.log, ∀ env m, storable L x.2 = some env → answeredMatch L env = some m →
    ∀ rows, rowsOf L env = .ok rows → rows.length = 2
  cache : ∀ m s, w.cache m = some s →
    Finished L w m ∧ s.totalAnswers = (answersOnLog L w.log m).length

theorem exec_store {o : Op} {d : Decision} {out : Answer o}
    (h : exec L w () pid n o d = some out) : out.shared.log = w.log ∧
      (∃ rows, out.shared.tables = w.tables ++ rows ∧ out.shared.inserted = w.inserted ++ rows) ∧
      (out.shared.cache = w.cache ∨
        ∃ m s, o = .setCache m s ∧ out.shared.cache = Function.update w.cache m (some s)) := by
  have hPerform : ∀ a, perform L w n o d = some a → a.shared.log = w.log ∧
      (∃ rows, a.shared.tables = w.tables ++ rows ∧ a.shared.inserted = w.inserted ++ rows) ∧
      (a.shared.cache = w.cache ∨
        ∃ m s, o = .setCache m s ∧ a.shared.cache = Function.update w.cache m (some s)) := by
    intro a ha
    cases o with
    | getmany =>
      simp only [perform] at ha
      split at ha <;> cases ha
      exact ⟨rfl, ⟨[], by simp, by simp⟩, .inl rfl⟩
    | claim i =>
      simp only [perform] at ha
      split at ha <;> cases ha <;> exact ⟨rfl, ⟨[], by simp, by simp⟩, .inl rfl⟩
    | insert b =>
      cases ha
      exact ⟨rfl, ⟨_, rfl, rfl⟩, .inl rfl⟩
    | setCache m s =>
      cases ha
      exact ⟨rfl, ⟨[], by simp, by simp⟩, .inr ⟨m, s, rfl, rfl⟩⟩
    | _ =>
      cases ha
      exact ⟨rfl, ⟨[], by simp, by simp⟩, .inl rfl⟩
  have hRaised : ∀ v : World, (v.raised o).log = v.log ∧ (v.raised o).tables = v.tables ∧
      (v.raised o).inserted = v.inserted ∧ (v.raised o).cache = v.cache := by
    intro v
    cases o <;> exact ⟨rfl, rfl, rfl, rfl⟩
  obtain ⟨-, ⟨-, hOk⟩ | ⟨-, -, -, ⟨-, hEq⟩ | ⟨-, a, ha, hEq⟩⟩⟩ := exec_cases h
  · exact hPerform out hOk
  · obtain ⟨hLog, hTables, hInserted, hCache⟩ := hRaised w
    rw [hEq, hLog, hTables, hInserted, hCache]
    exact ⟨rfl, ⟨[], by simp, by simp⟩, .inl rfl⟩
  · obtain ⟨hLog, hTables, hInserted, hCache⟩ := hRaised a.shared
    rw [hEq, hLog, hTables, hInserted, hCache]
    exact hPerform a ha

theorem Warm.total (hWarm : Warmed L w) (hInv : Inv L w) (hOnce : Once.Inv w) {m : Int}
    {s : Snapshot} (h : Warm L w m s) (hSeen : ∀ i ∈ answersOnLog L w.log m, i ∈ w.seen) :
    s.totalAnswers = (answersOnLog L w.log m).length := by
  obtain ⟨tables, hLess, hMore, hTotal⟩ := h.counted
  have hTables : tables = w.inserted := hMore.antisymm (hWarm.tables ▸ hLess)
  have hPerm : ((answersIn w.inserted m).map (·.eventId)).Perm (answersOnLog L w.log m) := by
    refine answersIn_perm hInv hOnce (fun i hi => ?_) fun x hx env => hWarm.shape x hx env m
    obtain ⟨x, hx, env, hEnv, hAnswered, hId⟩ := mem_answersOnLog.mp hi
    have hStored := h.settled.stored hInv hx hEnv (hId ▸ hSeen i hi)
    exact ⟨x, hx, env, hEnv, hAnswered, hId, hStored.written h.flushed⟩
  have hLength := hPerm.length_eq
  rw [List.length_map] at hLength
  rw [hTotal, hTables, ← hLength]
  rfl

theorem Warmed.exec (hWarm : Warmed L w) (hInv : Inv L w) (hOnce : Once.Inv w) {o : Op}
    {d : Decision} {out : Answer o} (hReq : Req L w o) (hOk : warmOp L w o d = true)
    (h : exec L w () pid n o d = some out) : Warmed L out.shared := by
  obtain ⟨hLog, ⟨rows, hTables, hInserted⟩, hCache⟩ := exec_store h
  have hFinished : ∀ m, Finished L w m → Finished L out.shared m := by
    intro m hm
    rw [← finishedOnLog_iff, hLog, finishedOnLog_iff]
    exact hm
  refine ⟨by rw [hTables, hInserted, hWarm.tables], hLog ▸ hWarm.shape, fun m s hs => ?_⟩
  rw [hLog]
  obtain hSame | ⟨m', s', rfl, hNew⟩ := hCache
  · obtain ⟨hm, hTotal⟩ := hWarm.cache m s (hSame ▸ hs)
    exact ⟨hFinished m hm, hTotal⟩
  · rw [hNew] at hs
    by_cases hm : m = m'
    · subst hm
      rw [Function.update_self] at hs
      cases hs
      simp only [warmOp, Bool.and_eq_true, List.all_eq_true, decide_eq_true_eq] at hOk
      exact ⟨hFinished m hReq.finished, hReq.total hWarm hInv hOnce hOk.2⟩
    · rw [Function.update_of_ne hm] at hs
      obtain ⟨hEnd, hTotal⟩ := hWarm.cache m s hs
      exact ⟨hFinished m hEnd, hTotal⟩

theorem Warmed.produce (hWarm : Warmed L w) {tp : TopicPartition} {value : Bytes}
    (hOk : ∀ env, storable L value = some env → warmMessage L w env = true) :
    Warmed L { w with log := w.log ++ [(tp, value)] } := by
  refine ⟨hWarm.tables, fun x hx env m hEnv hAnswered rows hRows => ?_, fun m s hs => ?_⟩
  · obtain hx | hx := List.mem_append.mp hx
    · exact hWarm.shape x hx env m hEnv hAnswered rows hRows
    · obtain rfl := List.mem_singleton.mp hx
      have hMessage := hOk env hEnv
      simp only [warmMessage, hAnswered, hRows, Bool.and_eq_true] at hMessage
      simpa [Except.toOption] using hMessage.1
  · obtain ⟨hEnd, hTotal⟩ := hWarm.cache m s hs
    have hSame : ∀ i, i ∈ answersOnLog L (w.log ++ [(tp, value)]) m ↔
        i ∈ answersOnLog L w.log m := by
      intro i
      rw [mem_answersOnLog, mem_answersOnLog]
      constructor
      · rintro ⟨x, hx, env, hEnv, hAnswered, hId⟩
        obtain hx | hx := List.mem_append.mp hx
        · exact ⟨x, hx, env, hEnv, hAnswered, hId⟩
        · obtain rfl := List.mem_singleton.mp hx
          have hMessage := hOk env hEnv
          simp only [warmMessage, hAnswered, finishedOnLog_iff.mpr hEnd, Bool.and_eq_true,
            Bool.not_true, Bool.false_or, decide_eq_true_eq] at hMessage
          exact hId ▸ mem_answersOnLog.mp hMessage.2
      · rintro ⟨x, hx, hEnv⟩
        exact ⟨x, List.mem_append_left _ hx, hEnv⟩
    have hPerm : (answersOnLog L (w.log ++ [(tp, value)]) m).Perm (answersOnLog L w.log m) :=
      (List.perm_ext_iff_of_nodup (List.nodup_dedup _) (List.nodup_dedup _)).mpr hSame
    refine ⟨?_, ?_⟩
    · obtain ⟨x, hx, hEnv⟩ := hEnd
      exact ⟨x, List.mem_append_left _ hx, hEnv⟩
    · rw [hTotal, hPerm.length_eq]

theorem not_replaced (hOnce : Once.Inv w) (hTables : w.tables = w.inserted) (i : Nat) :
    replaced w.tables i = false := by
  rw [Bool.eq_false_iff]
  intro hReplaced
  unfold replaced at hReplaced
  split at hReplaced
  next table row hGet =>
    obtain ⟨hTable, hLater⟩ := of_decide_eq_true hReplaced
    obtain ⟨⟨table', x⟩, hx, hKey⟩ := List.any_eq_true.mp hLater
    cases x with
    | raw r => cases hKey
    | answer row' =>
      obtain ⟨hTable', hSame⟩ := of_decide_eq_true hKey
      have hEvent : row'.eventId = row.eventId := congrArg (fun k => k.2.2.2) hSame
      have hWithin := hOnce.within answerEventsTable row.eventId
      have hOne : (if row.eventId ∈ w.seen then 1 else 0) ≤ 1 := by split <;> omega
      have hSplit : w.inserted = w.tables.take (i + 1) ++ w.tables.drop (i + 1) := by
        rw [List.take_append_drop, hTables]
      have hFirst : 0 < tally answerEventsTable row.eventId (w.tables.take (i + 1)) := by
        apply List.countP_pos_iff.mpr
        refine ⟨(table, .answer row), ?_, by simp [hTable, Row.eventId]⟩
        have hLt := (List.getElem?_eq_some_iff.mp hGet).1
        exact List.mem_of_getElem? (by rw [List.getElem?_take_of_lt (Nat.lt_succ_self i), hGet])
      have hSecond : 0 < tally answerEventsTable row.eventId (w.tables.drop (i + 1)) :=
        List.countP_pos_iff.mpr ⟨(table', .answer row'), hx, by simp [hTable', Row.eventId, hEvent]⟩
      rw [hSplit, Once.tally_append] at hWithin
      omega
  · cases hReplaced

theorem Warmed.env (hWarm : Warmed L w) (hOnce : Once.Inv w) {e : EnvAction}
    {out : World × Option Unit} (hOk : warmEnv L w e = true) (h : env w n e = some out) :
    Warmed L out.1 := by
  cases e with
  | produce tp value =>
    cases h
    simp only [warmEnv, Bool.and_eq_true] at hOk
    refine hWarm.produce fun env hEnv => ?_
    have hMessage := hOk.2
    rwa [hEnv] at hMessage
  | merge i =>
    simp only [Stream.env, not_replaced hOnce hWarm.tables i] at h
    cases h
  | restart | sigterm | tick | expire =>
    cases h
    exact ⟨hWarm.tables, hWarm.shape, hWarm.cache⟩

end

section

variable {L : Outside} {S : WorkerState}

theorem warm_careful {S : WorkerState} {l : WorkerLabel}
    (h : Machine.admits (warmOp L) (warmEnv L) S l = true) :
    Machine.admits carefulOp (carefulEnv L) S l = true ∧
      Machine.admits (fun _ _ _ => true) Once.keepsClaims S l = true := by
  cases l with
  | env e =>
    simp only [Machine.admits, warmEnv, Bool.and_eq_true] at h ⊢
    exact h.1
  | op pid d =>
    simp only [Machine.admits] at h ⊢
    split at h
    · simp only [warmOp, Bool.and_eq_true] at h
      exact ⟨h.1, rfl⟩
    · exact ⟨rfl, rfl⟩

theorem warmed_reach
    (h : (worker L).Reach (fun S l => Machine.admits (warmOp L) (warmEnv L) S l = true) blank S) :
    Warmed L S.shared := by
  induction h with
  | refl =>
    refine ⟨rfl, fun x hx => (by cases hx), fun m s hs => ?_⟩
    cases hs
  | @tail S' S'' l hReach hC hStep ih =>
    have hKept := (sound L).kept (kept_blank L)
      (hReach.mono fun S l hl => (warm_careful hl).1).restrict
    have hOnce := ((Once.sound L).kept (Once.kept_blank L)
      (hReach.mono fun S l hl => (warm_careful hl).2).restrict).inv
    obtain ⟨pid, d, t, o, k, out, rfl, hProc, hExec, rfl⟩ | ⟨e, out, rfl, hEnv, rfl⟩ :=
      Machine.step_cases hStep
    · have hReq := hKept.req (sound L) hProc (exec_cases hExec).1
      simp only [Machine.admits, hProc] at hC
      exact ih.exec hKept.inv hOnce hReq hC hExec
    · exact ih.env hOnce hC hEnv

/-- In every run in which a snapshot is stored only when all answers to its match on the
log have been claimed, a cached snapshot counts all of them. The answers to a match come
before its end, with their ids; no insert raises, no claim is lost or expires, and a
restart finds all claimed events written. -/
theorem warm_cache_complete
    (h : (worker L).Reach (fun S l => Machine.admits (warmOp L) (warmEnv L) S l = true) blank S)
    {m : Int} {s : Snapshot} (hCache : S.shared.cache m = some s) :
    s.totalAnswers = (answersOnLog L S.shared.log m).length :=
  ((warmed_reach h).cache m s hCache).2

end

namespace Demo

/-- The bytes of
`{"event_id":8,"event_type":"AnswerSubmitted","aggregate_type":"match","aggregate_id":54,
"occurred_at":0,"producer":"api","schema_version":1,"payload":{"match_id":54,"room_id":1,
"participant_id":22,"question_id":100}}`. -/
def secondMessage : Bytes :=
  [123, 34, 101, 118, 101, 110, 116, 95, 105, 100, 34, 58, 56, 44, 34, 101, 118, 101, 110, 116,
    95, 116, 121, 112, 101, 34, 58, 34, 65, 110, 115, 119, 101, 114, 83, 117, 98, 109, 105, 116,
    116, 101, 100, 34, 44, 34, 97, 103, 103, 114, 101, 103, 97, 116, 101, 95, 116, 121, 112, 101,
    34, 58, 34, 109, 97, 116, 99, 104, 34, 44, 34, 97, 103, 103, 114, 101, 103, 97, 116, 101, 95,
    105, 100, 34, 58, 53, 52, 44, 34, 111, 99, 99, 117, 114, 114, 101, 100, 95, 97, 116, 34, 58,
    48, 44, 34, 112, 114, 111, 100, 117, 99, 101, 114, 34, 58, 34, 97, 112, 105, 34, 44, 34, 115,
    99, 104, 101, 109, 97, 95, 118, 101, 114, 115, 105, 111, 110, 34, 58, 49, 44, 34, 112, 97,
    121, 108, 111, 97, 100, 34, 58, 123, 34, 109, 97, 116, 99, 104, 95, 105, 100, 34, 58, 53, 52,
    44, 34, 114, 111, 111, 109, 95, 105, 100, 34, 58, 49, 44, 34, 112, 97, 114, 116, 105, 99, 105,
    112, 97, 110, 116, 95, 105, 100, 34, 58, 50, 50, 44, 34, 113, 117, 101, 115, 116, 105, 111,
    110, 95, 105, 100, 34, 58, 49, 48, 48, 125, 125]

def secondEnvelope : Envelope :=
  { answerEnvelope with
    eventId := 8
    payload := [("match_id", .int 54), ("room_id", .int 1), ("participant_id", .int 22),
      ("question_id", .int 100)] }

/-- The bytes of
`{"event_id":9,"event_type":"MatchFinished","aggregate_type":"match","aggregate_id":54,
"occurred_at":0,"producer":"api","schema_version":1,"payload":{"match_id":54}}`. -/
def finishMessage : Bytes :=
  [123, 34, 101, 118, 101, 110, 116, 95, 105, 100, 34, 58, 57, 44, 34, 101, 118, 101, 110, 116,
    95, 116, 121, 112, 101, 34, 58, 34, 77, 97, 116, 99, 104, 70, 105, 110, 105, 115, 104, 101,
    100, 34, 44, 34, 97, 103, 103, 114, 101, 103, 97, 116, 101, 95, 116, 121, 112, 101, 34, 58,
    34, 109, 97, 116, 99, 104, 34, 44, 34, 97, 103, 103, 114, 101, 103, 97, 116, 101, 95, 105,
    100, 34, 58, 53, 52, 44, 34, 111, 99, 99, 117, 114, 114, 101, 100, 95, 97, 116, 34, 58, 48,
    44, 34, 112, 114, 111, 100, 117, 99, 101, 114, 34, 58, 34, 97, 112, 105, 34, 44, 34, 115, 99,
    104, 101, 109, 97, 95, 118, 101, 114, 115, 105, 111, 110, 34, 58, 49, 44, 34, 112, 97, 121,
    108, 111, 97, 100, 34, 58, 123, 34, 109, 97, 116, 99, 104, 95, 105, 100, 34, 58, 53, 52, 125,
    125]

def finishEnvelope : Envelope :=
  { answerEnvelope with
    eventId := 9, eventType := "MatchFinished", payload := [("match_id", .int 54)] }

/-- The parser on the three messages. -/
def threeMessages : Outside where
  parseEnvelope value :=
    if value = answerMessage then .ok answerEnvelope
    else if value = secondMessage then .ok secondEnvelope
    else if value = finishMessage then .ok finishEnvelope
    else .error .invalid
  intOfStr _ := none
  quantile _ xs := xs.headD 0

def matchEvents : TopicPartition := ⟨"livequiz.events.match", 0⟩

/-- Two answers to match 54 and its end are published, and the worker starts. -/
def played : List WorkerLabel :=
  [.env (.produce answers answerMessage), .env (.produce answers secondMessage),
    .env (.produce matchEvents finishMessage), .env .restart]

def polls (pid n : Nat) (batch : List (TopicPartition × Nat)) : List WorkerLabel :=
  List.replicate n (.op pid { batch := batch })

/-- What the cached snapshot counts, and how many answers there are. -/
def counts (S : WorkerState) : Option Int × Nat :=
  ((S.shared.cache 54).map (·.totalAnswers), (answersOnLog threeMessages S.shared.log 54).length)

end Demo

/-- The worker reads both answers, then the end of the match. -/
theorem warm_cache_complete_in_turn : ∃ (S : WorkerState) (s : Snapshot),
    S.shared.cache 54 = some s ∧
      s.totalAnswers = (answersOnLog Demo.threeMessages S.shared.log 54).length := by
  have hRun : ((worker Demo.threeMessages).runWhile
      (Machine.admits (warmOp Demo.threeMessages) (warmEnv Demo.threeMessages)) blank
      (Demo.played ++ Demo.polls 0 13 [(Demo.answers, 2)] ++ Demo.polls 1 9 [(Demo.matchEvents, 1)])).any
        (fun S => (S.shared.cache 54).isSome) = true := by decide +kernel
  obtain ⟨S, hReach, hS⟩ := Machine.Reach.exists_of_runWhile hRun
  obtain ⟨s, hs⟩ := Option.isSome_iff_exists.mp hS
  exact ⟨S, s, hs, warm_cache_complete hReach hs⟩

/-- The worker polls the end of the match before the second answer, which has been on the
log since before: the snapshot it stores counts one answer of two. -/
theorem snapshot_misses_an_answer : ∃ S,
    (worker Demo.threeMessages).Reach (fun _ _ => True) blank S ∧ Demo.counts S = (some 1, 2) ∧
      S.shared.log = [(Demo.answers, Demo.answerMessage), (Demo.answers, Demo.secondMessage),
        (Demo.matchEvents, Demo.finishMessage)] := by
  have hRun : ((worker Demo.threeMessages).run blank
      (Demo.played ++ Demo.polls 0 10 [(Demo.answers, 1)] ++ Demo.polls 1 9 [(Demo.matchEvents, 1)])).any
        (fun S => Demo.counts S = (some 1, 2) ∧
          S.shared.log = [(Demo.answers, Demo.answerMessage), (Demo.answers, Demo.secondMessage),
            (Demo.matchEvents, Demo.finishMessage)]) = true := by decide +kernel
  obtain ⟨S, hReach, hS⟩ := Machine.Reach.exists_of_run hRun
  obtain ⟨hCounts, hLog⟩ := of_decide_eq_true hS
  exact ⟨S, hReach, hCounts, hLog⟩

end LiveQuiz.Stream
