import LiveQuiz.Protocol.Locks
import LiveQuiz.Protocol.Moves

/-! # Host controls and deadlocks

A call that needs the lock of a row waits while another transaction holds it. Every
FOR UPDATE follows one order, the match before its room before a question; only the
UPDATE of a match under the lock of its room goes against it. So the transactions wait
in a circle only after a match and its room were locked from both ends.
-/

namespace LiveQuiz

open Coroutine

set_option autoImplicit false

/-- The rows a call needs the locks of. -/
def Op.rows (db : Db) : Op → List RowRef
  | .selectForUpdate q => ((q.find db).map q.ref).toList
  | .flush ws => ws.filterMap Write.target
  | _ => []

def asked (S : SysState) (pid : Nat) : List RowRef :=
  match S.procs[pid]? with
  | some ⟨_, .call o _⟩ => o.rows (S.shared.view pid)
  | _ => []

/-- Program `p` waits for a row lock that `q` holds. -/
def Waits (S : SysState) : Nat → Nat → Prop :=
  Awaits (fun p r => r ∈ asked S p ∧ S.shared.free r p = false) fun q r => S.shared.lock r = some q

/-- No other program holds the other lock of the pair that a match makes with its room. -/
def World.pairFree (w : World) (pid : Nat) : RowRef → Bool
  | .match' i => w.db.matches'.all fun m => m.id ≠ i || w.free (.room m.roomId) pid
  | .room i => w.db.matches'.all fun m => m.roomId ≠ i || w.free (.match' m.id) pid
  | .matchQuestion _ => true

/-- A FOR UPDATE takes a match or a room while no other program holds its counterpart. -/
def locksApart (S : SysState) : SysLabel → Bool
  | .op pid d =>
    match S.procs[pid]? with
    | some ⟨_, .call (.selectForUpdate q) _⟩ => d.fault = .fail ||
      (q.find (S.shared.view pid)).all fun row => S.shared.pairFree pid (q.ref row)
    | _ => true
  | .env _ => true

def World.Paired (w : World) : Prop :=
  ∀ m ∈ w.db.matches', ∀ p q, w.lock (.match' m.id) = some p → w.lock (.room m.roomId) = some q → p = q

structure Orderly (S : SysState) : Prop where
  owner : ∀ r pid, S.shared.lock r = some pid → pid < S.procs.length
  fits : ∀ pid pr, S.procs[pid]? = some pr →
    ∃ s : LockPhase, Locks (fun _ _ => True) s pr.prog ∧ s.Fits S.shared pid
  paired : S.shared.Paired

section

variable {n pid : Nat} {w v : World} {t : Task} {o : Op}

theorem free_eq {r : RowRef} {q : Nat} (h : w.free r pid = true) (hLock : w.lock r = some q) :
    q = pid := by
  simpa [World.free, hLock] using h

theorem pairFree_match {m : Match} {i : Id} {q : Nat} (h : w.pairFree pid (.match' i) = true)
    (hm : m ∈ w.db.matches') (hId : m.id = i) (hLock : w.lock (.room m.roomId) = some q) : q = pid := by
  have hFree := List.all_eq_true.mp h m hm
  simp only [hId, ne_eq, not_true_eq_false, decide_false, Bool.false_or] at hFree
  exact free_eq hFree hLock

theorem pairFree_room {m : Match} {i : Id} {q : Nat} (h : w.pairFree pid (.room i) = true)
    (hm : m ∈ w.db.matches') (hRoom : m.roomId = i) (hLock : w.lock (.match' m.id) = some q) :
    q = pid := by
  have hFree := List.all_eq_true.mp h m hm
  simp only [hRoom, ne_eq, not_true_eq_false, decide_false, Bool.false_or] at hFree
  exact free_eq hFree hLock

theorem Commit.inserts_under_room {job : Job} {ws : List Write} (h : Commit w pid job ws) {m : Match}
    (hIns : .insertMatch m ∈ ws) : w.lock (.room m.roomId) = some pid := by
  cases h with
  | start host code matchId room quiz questions ids startedAt eventId _ _ hLock =>
    have hEq : m = ⟨matchId, room.id, quiz.version, .running, startedAt, none⟩ := by
      simpa [startWrites] using hIns
    rw [hEq]
    exact hLock
  | resume _ _ _ deadline _ _ _ hDeadline =>
    obtain rfl | ⟨i, u, -, rfl⟩ := hDeadline <;> simp at hIns
  | _ => simp [armWrites, closeWrites, finishWrites, submitWrites] at hIns

theorem updateMatch_of_target {ws : List Write} {i : Id} (h : .match' i ∈ ws.filterMap Write.target) :
    ∃ st ea, .updateMatch i st ea ∈ ws := by
  obtain ⟨wr, hwr, hTarget⟩ := List.mem_filterMap.mp h
  cases wr with
  | updateMatch j st ea =>
    cases hTarget
    exact ⟨st, ea, hwr⟩
  | _ => cases hTarget

/-- The pairs stay with one program each. `hRow` is the condition on the locks taken by
SELECT, `hFlush` is what the monitor says about those of a flush. -/
theorem Relocks.paired (hInv : Inv n w) (hReq : Req pid t w o) (hPaired : w.Paired)
    (hRow : ∀ q row, o = .selectForUpdate q → q.find (w.view pid) = some row →
      w.pairFree pid (q.ref row) = true)
    (hFlush : ∀ ws, o = .flush ws → ∀ r ∈ ws.filterMap Write.target,
      w.lock r = some pid ∨ ∃ i, r = .match' i)
    (h : Relocks w pid o v) : v.Paired := by
  intro m hm p q hMatch hRoom
  cases h with
  | kept _ _ hDb hLock =>
    rw [hDb] at hm
    rw [hLock] at hMatch hRoom
    exact hPaired m hm p q hMatch hRoom
  | freed _ _ hDb hLock =>
    have hBack : ∀ r p, v.lock r = some p → w.lock r = some p ∧ w.lock r ≠ some pid := by
      intro r p hr
      rw [hLock] at hr
      split at hr
      · cases hr
      next hOther => exact ⟨hr, hOther⟩
    obtain hDb | ⟨rfl, hDb⟩ := hDb
    · rw [hDb] at hm
      exact hPaired m hm p q (hBack _ _ hMatch).1 (hBack _ _ hRoom).1
    · rw [hDb] at hm
      obtain ⟨m₀, hm₀, hMove⟩ | ⟨hIns, -⟩ := Commit.match_back hInv hReq hm
      · rw [hMove.id] at hMatch
        rw [hMove.roomId] at hRoom
        exact hPaired m₀ hm₀ p q (hBack _ _ hMatch).1 (hBack _ _ hRoom).1
      · exact absurd (Commit.inserts_under_room hReq hIns) (hBack _ _ hRoom).2
  | row query row _ hFind hDb hFree hLock =>
    rw [hDb] at hm
    have hPair := hRow query row rfl hFind
    rw [hLock] at hMatch hRoom
    generalize query.ref row = taken at hPair hMatch hRoom
    split at hMatch
    next hEq =>
      subst hEq
      cases hMatch
      rw [if_neg (by simp)] at hRoom
      exact (pairFree_match hPair hm rfl hRoom).symm
    · split at hRoom
      next hEq =>
        subst hEq
        cases hRoom
        exact pairFree_room hPair hm rfl hMatch
      · exact hPaired m hm p q hMatch hRoom
  | rows ws _ hDb hFree hLock =>
    rw [hDb] at hm
    have hRoom' : w.lock (.room m.roomId) = some q := by
      rw [hLock] at hRoom
      split at hRoom
      next hMem =>
        obtain hHeld | ⟨i, hEq⟩ := hFlush ws rfl _ hMem
        · rw [hHeld]
          exact hRoom
        · cases hEq
      · exact hRoom
    rw [hLock] at hMatch
    split at hMatch
    next hMem =>
      obtain ⟨st, ea, hwr⟩ := updateMatch_of_target hMem
      obtain ⟨m₀, hm₀, hId, hLocked⟩ := hReq m.id st ea hwr
      rw [hInv.keys.match_eq hm₀ hm (.inl hId), hRoom'] at hLocked
      cases hMatch
      cases hLocked
      rfl
    · exact hPaired m hm p q hMatch hRoom'

end

section

variable {seed : Seed} {S S' : SysState} {l : SysLabel}

theorem Orderly.held {S : SysState} (h : Orderly S) {pid : Nat} {t : Task} {ws : List Write}
    {k : Except Exn Unit → Coro Ret} (hProc : S.procs[pid]? = some ⟨t, .call (.flush ws) k⟩) :
    ∀ r ∈ ws.filterMap Write.target, S.shared.lock r = some pid ∨ ∃ i, r = .match' i := by
  intro r hr
  obtain ⟨s, hLocks, hFits⟩ := h.fits pid _ hProc
  cases s with
  | holds refs => exact (hLocks.1 r hr).imp_left (hFits r).mpr
  | broken => exact hLocks.1.elim

theorem orderly_step (hS : Held S) (hCond : locksApart S l = true)
    (hStep : service.step S l = some S') (h : Orderly S) : Orderly S' := by
  have hFresh : ∀ r, S.shared.lock r ≠ some S.procs.length := fun r hr => by
    have := h.owner r _ hr
    omega
  obtain ⟨q, d, t, o, k, out, rfl, hProc, hExec, rfl⟩ | ⟨e, out, rfl, hEnv, rfl⟩ :=
    Machine.step_cases hStep
  · have hLt := (List.getElem?_eq_some_iff.mp hProc).1
    have hRelocks : Relocks S.shared q o out.shared := exec_relocks hExec
    constructor
    · intro r pid hr
      by_cases hPid : q = pid
      · subst hPid
        simp
        omega
      · have := h.owner r pid ((hRelocks.other hPid r).mp hr)
        simp
        omega
    · intro pid pr hp
      obtain hOld | ⟨rfl, t', -, rfl⟩ := getElem?_append_spawned hp
      · by_cases hPid : q = pid
        · subst hPid
          rw [List.getElem?_set_self hLt] at hOld
          cases hOld
          obtain ⟨s, hLocks, hFits⟩ := h.fits q _ hProc
          exact ⟨_, hLocks.2 out.result, fits_exec hExec hFits⟩
        · rw [List.getElem?_set_ne hPid] at hOld
          obtain ⟨s, hLocks, hFits⟩ := h.fits pid _ hOld
          exact ⟨s, hLocks, hFits.congr (hRelocks.other hPid)⟩
      · rw [List.length_set]
        refine ⟨.holds [], jobBody_locks t'.job, fun r => ?_⟩
        rw [hRelocks.other (by omega)]
        simp [hFresh r]
    · by_cases hFail : d.fault = .fail
      · have hReq : Req q t S.shared .rollback := trivial
        refine (exec_fail_relocks hExec hFail).paired hS.inv hReq h.paired ?_ ?_
        · rintro query row ⟨⟩
        · rintro ws ⟨⟩
      · refine hRelocks.paired hS.inv (hS.req sound hProc) h.paired ?_ ?_
        · rintro query row rfl hFind
          simpa [locksApart, hProc, hFail, hFind] using hCond
        · rintro ws rfl
          exact h.held hProc
  · have hSame := env_same (n := S.procs.length) hEnv
    have hLock : out.1.lock = S.shared.lock := hSame.lock
    constructor
    · intro r pid hr
      rw [hLock] at hr
      have := h.owner r pid hr
      simp
      omega
    · intro pid pr hp
      obtain hOld | ⟨rfl, t', -, rfl⟩ := getElem?_append_spawned hp
      · obtain ⟨s, hLocks, hFits⟩ := h.fits pid _ hOld
        exact ⟨s, hLocks, hFits.congr fun r => by rw [hLock]⟩
      · refine ⟨.holds [], jobBody_locks t'.job, fun r => ?_⟩
        rw [hLock]
        simp [hFresh r]
    · intro m hm p q
      rw [hSame.matches'] at hm
      rw [hLock]
      exact h.paired m hm p q

theorem orderly_reach (h : service.Reach (fun S l => locksApart S l = true) (initial seed) S) :
    Orderly S := by
  induction h with
  | refl =>
    constructor
    · exact fun _ _ hr => by cases hr
    · exact fun _ _ hp => by cases hp
    · exact fun _ hm => by cases hm
  | tail hReach hCond hStep ih => exact orderly_step (held_of_reach hReach) hCond hStep ih

theorem LockQuery.rank_ref (q : LockQuery) (row : q.Row) : (q.ref row).rank = q.rank := by
  cases q <;> rfl

theorem Orderly.rises (hS : Held S) (h : Orderly S) {pid : Nat} {r r' : RowRef}
    (hHolds : S.shared.lock r = some pid) (hAsked : r' ∈ asked S pid)
    (hTaken : S.shared.free r' pid = false) : r.rank < r'.rank := by
  unfold asked at hAsked
  split at hAsked
  next t o k hProc =>
    obtain ⟨s, hLocks, hFits⟩ := h.fits pid _ hProc
    cases o with
    | selectForUpdate q =>
      obtain ⟨row, hFind, rfl⟩ : ∃ row, q.find (S.shared.view pid) = some row ∧ q.ref row = r' := by
        simpa [Op.rows] using hAsked
      rw [LockQuery.rank_ref]
      cases s with
      | holds refs => exact hLocks.1 r ((hFits r).mp hHolds)
      | broken => exact hLocks.1.elim
    | flush ws =>
      obtain hMine | ⟨i, rfl⟩ := h.held hProc r' hAsked
      · simp [World.free, hMine] at hTaken
      · obtain ⟨st, ea, hwr⟩ := updateMatch_of_target hAsked
        obtain ⟨m, hm, rfl, hLocked⟩ := hS.req sound hProc i st ea hwr
        cases hOwner : S.shared.lock (.match' m.id) with
        | none => simp [World.free, hOwner] at hTaken
        | some q =>
          have hEq := h.paired m hm q pid hOwner hLocked
          simp [World.free, hOwner, hEq] at hTaken
    | _ => cases hAsked
  · cases hAsked

/-- While no FOR UPDATE takes a match or a room whose counterpart another transaction has
locked: the transactions never wait for each other's row locks in a circle. -/
theorem host_controls_deadlock_free
    (h : service.Reach (fun S l => locksApart S l = true) (initial seed) S) (pid : Nat) :
    ¬Relation.TransGen (Waits S) pid pid := by
  have hOrderly := orderly_reach h
  have hRises : ∀ p r r', S.shared.lock r = some p → (r' ∈ asked S p ∧ S.shared.free r' p = false) →
      r.rank < r'.rank := by
    rintro p r r' hHolds ⟨hAsked, hTaken⟩
    exact hOrderly.rises (held_of_reach h) hHolds hAsked hTaken
  exact awaits_acyclic hRises pid

end

/-- Match 54 runs; `end_match` has the match and the room when the pause comes to its room. -/
def Demo.overlapping : List SysLabel :=
  opening ++ [.env (.request 0 (.endMatch 54 (some 7))), .env (.request 0 (.pauseMatch 7 "AB"))] ++
    calls 4 3 0

/-- The pause has the room, and `end_match` the match. -/
def Demo.deadlock : List SysLabel :=
  opening ++ [.env (.request 0 (.pauseMatch 7 "AB")), .env (.request 0 (.endMatch 54 (some 7)))] ++
    calls 4 5 0 ++ calls 5 2 0

/-- The pause waits for `end_match`, and neither in a circle. -/
theorem host_controls_deadlock_free_pausing : ∃ S : SysState,
    service.Reach (fun S l => locksApart S l = true) (initial Demo.seed) S ∧
    (S.procs[4]?.map (·.task.job) = some (.endMatch 54 (some 7))) ∧
    (S.procs[5]?.map (·.task.job) = some (.pauseMatch 7 "AB")) ∧
    Waits S 5 4 ∧ ¬Relation.TransGen (Waits S) 5 5 ∧ ¬Relation.TransGen (Waits S) 4 4 := by
  have hRun : (service.runWhile locksApart (initial Demo.seed) Demo.overlapping).any (fun S =>
      S.procs[4]?.map (·.task.job) = some (.endMatch 54 (some 7)) ∧
      S.procs[5]?.map (·.task.job) = some (.pauseMatch 7 "AB") ∧
      (.room 1 ∈ asked S 5 ∧ S.shared.free (.room 1) 5 = false) ∧
      S.shared.lock (.room 1) = some 4) = true := by
    decide +kernel
  obtain ⟨S, hReach, hS⟩ := Machine.Reach.exists_of_runWhile hRun
  obtain ⟨hEnd, hPause, hWants, hLock⟩ := of_decide_eq_true hS
  exact ⟨S, hReach, hEnd, hPause, ⟨.room 1, hWants, hLock⟩, host_controls_deadlock_free hReach 5,
    host_controls_deadlock_free hReach 4⟩

/-- The pause waits for the match at its flush, and `end_match` for the room. -/
theorem pause_end_deadlock : ∃ S : SysState, service.Reach (fun _ _ => True) (initial Demo.seed) S ∧
    (S.procs[4]?.map (·.task.job) = some (.pauseMatch 7 "AB")) ∧
    (S.procs[5]?.map (·.task.job) = some (.endMatch 54 (some 7))) ∧
    Relation.TransGen (Waits S) 4 4 := by
  have hRun : (service.run (initial Demo.seed) Demo.deadlock).any (fun S =>
      S.procs[4]?.map (·.task.job) = some (.pauseMatch 7 "AB") ∧
      S.procs[5]?.map (·.task.job) = some (.endMatch 54 (some 7)) ∧
      (.match' 54 ∈ asked S 4 ∧ S.shared.free (.match' 54) 4 = false) ∧
      S.shared.lock (.match' 54) = some 5 ∧
      (.room 1 ∈ asked S 5 ∧ S.shared.free (.room 1) 5 = false) ∧
      S.shared.lock (.room 1) = some 4) = true := by
    decide +kernel
  obtain ⟨S, hReach, hS⟩ := Machine.Reach.exists_of_run hRun
  obtain ⟨hPause, hEnd, hWants, hLock, hWants', hLock'⟩ := of_decide_eq_true hS
  refine ⟨S, hReach, hPause, hEnd, .tail (.single ⟨.match' 54, hWants, hLock⟩) ?_⟩
  exact ⟨.room 1, hWants', hLock'⟩

end LiveQuiz
