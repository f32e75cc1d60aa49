import LiveQuiz.Results.Capacity
import LiveQuiz.Rooms.Turns

/-! # Seats that nobody takes

The counter of a room never counts more than its active participants and the joins under
way, as long as every join that raises gives its seat back first and nobody who is active
is kicked. Only the path of the duplicate nickname gives a seat back.
-/

namespace LiveQuiz.Rooms

open Coroutine

set_option autoImplicit false

/-- No call raises and leaves its program with the seat it has taken, but for the unique
violation that `join_room` waits for; and nobody who is active is kicked. -/
def seatsSettled (O : Outside) (S : SysState) : SysLabel → Bool
  | .op pid d =>
    match S.procs[pid]? with
    | some ⟨t, .call o _⟩ =>
      match exec O S.shared t pid S.procs.length o d with
      | some ⟨v, .error e, _⟩ => v.seat pid = none || Turn.expected o e
      | _ => true
    | _ => true
  | .env (.kick i) => S.shared.participants.all fun p => p.id ≠ i || !World.isActive p.roomId p
  | .env _ => true

/-- The counter of no room counts more than its participants and the `held` seats. -/
def World.Bounded (w : World) (held : String → Nat) : Prop :=
  ∀ r ∈ w.rooms, w.count r.code ≤ (w.active r.id).length + held r.code

section

variable {O : Outside} {w v : World} {pid n : Nat} {job : Job} {o : Op} {d : Decision}
  {out : Answer o} {s : SeatPhase}

theorem perform_active_le (h : perform O w pid n o d = some out) (i : Id) :
    (w.active i).length ≤ (out.shared.active i).length := by
  by_cases ho : o.seats = false
  · rw [World.active, World.active, (perform_steady ho h).participants]
  cases o with
  | commit =>
    cases h
    unfold World.active
    rw [(committed w pid).participants, List.filter_append, List.length_append]
    omega
  | countInit c m =>
    cases h
    exact le_rfl
  | countAdmit c m =>
    cases h
    obtain hEq | ⟨-, hEq⟩ := admit_cases w pid c m
    · rw [hEq]
    · rw [hEq]
      exact le_rfl
  | countRelease c =>
    cases h
    rw [World.active, World.active, (release_rows w pid c).2.1]
  | _ => exact absurd rfl ho

section

variable {held held' : String → Nat}

theorem World.Bounded.steady (hSteady : Steady pid w v)
    (hHeld : ∀ c, held c + v.seatOf pid c ≤ held' c + w.seatOf pid c) (hBounded : w.Bounded held) :
    v.Bounded held' := by
  intro r hr
  rw [hSteady.rooms] at hr
  have hOne := hHeld r.code
  simp only [World.seatOf, hSteady.seat] at hOne
  have hr' := hBounded r hr
  simp only [World.active, World.count, hSteady.participants, hSteady.counter] at hr' ⊢
  omega

theorem World.Bounded.commit_joining {c : String} {room : Room} (hTables : Tables n w)
    (hFits : (SeatPhase.joining c room).Fits w pid)
    (hHeld : ∀ c, held c + (w.commit pid).seatOf pid c ≤ held' c + w.seatOf pid c)
    (hActive : ∀ i, (w.active i).length ≤ ((w.commit pid).active i).length)
    (hBounded : w.Bounded held) : (w.commit pid).Bounded held' := by
  obtain ⟨p, -, hRooms, hParts, hIn⟩ := Rooms.commit_joining hFits
  obtain ⟨hs, ⟨r₀, hr₀, hCode, hId, -⟩, -⟩ := hFits
  intro r hr
  have hOne := hHeld r.code
  have hMore := hActive r.id
  rw [seatOf_commit] at hOne
  rw [count_commit]
  rw [hRooms] at hr
  have hr' := hBounded r hr
  by_cases hMine : r.code = c
  · have hEq := hTables.room_eq hr hr₀ (.inr (hMine.trans hCode.symm))
    have hSeat : w.seatOf pid r.code = 1 := by
      rw [hMine]
      exact if_pos hs
    have hNew : ((w.commit pid).active r.id).length = (w.active r.id).length + 1 := by
      unfold World.active
      rw [hParts, List.filter_append, List.length_append, hEq, hId, List.filter_cons_of_pos hIn]
      rfl
    omega
  · have hSeat : w.seatOf pid r.code = 0 := by
      refine if_neg fun h => hMine ?_
      exact Option.some.inj (h.symm.trans hs)
    omega

theorem World.Bounded.commit_created {room : Room} (hTables : Tables n w)
    (hFits : (SeatPhase.created room).Fits w pid)
    (hHeld : ∀ c, held c + (w.commit pid).seatOf pid c ≤ held' c + w.seatOf pid c)
    (hActive : ∀ i, (w.active i).length ≤ ((w.commit pid).active i).length)
    (hBounded : w.Bounded held) : (w.commit pid).Bounded held' := by
  obtain ⟨hRooms, -⟩ := Rooms.commit_created hFits
  obtain ⟨hs, rest, hw, -⟩ := hFits
  intro r hr
  have hOne := hHeld r.code
  have hMore := hActive r.id
  have hSeat : w.seatOf pid r.code = 0 := by simp [World.seatOf, hs]
  rw [seatOf_commit] at hOne
  rw [count_commit]
  rw [hRooms, List.mem_append, List.mem_singleton] at hr
  obtain hr | rfl := hr
  · have hr' := hBounded r hr
    omega
  · have hFresh := hTables.fresh pid r (by simp [hw])
    have hZero : w.count r.code = 0 := by
      unfold World.count
      rw [hTables.unborn r.code fun b hb => (hFresh b hb).2.symm]
      rfl
    omega

theorem World.Bounded.countInit {c : String} {m : Nat}
    (hHeld : ∀ c', held c' + (w.setCount c m).seatOf pid c' ≤ held' c' + w.seatOf pid c')
    (hSeed : ∀ r ∈ w.rooms, r.code = c → m ≤ (w.active r.id).length) (hBounded : w.Bounded held) :
    (w.setCount c m).Bounded held' := by
  intro r hr
  have hOne := hHeld r.code
  have hr' := hBounded r hr
  change held r.code + w.seatOf pid r.code ≤ held' r.code + w.seatOf pid r.code at hOne
  change (w.setCount c m).count r.code ≤ (w.active r.id).length + held' r.code
  rw [count_setCount]
  split
  next hCode =>
    have hLe := hSeed r hr hCode
    omega
  · omega

theorem World.Bounded.countAdmit {c : String} {m : Nat} (hNone : w.seat pid = none)
    (hHeld : ∀ c', held c' + (capacityAdmit w pid c m).shared.seatOf pid c' ≤
      held' c' + w.seatOf pid c')
    (hBounded : w.Bounded held) : (capacityAdmit w pid c m).shared.Bounded held' := by
  have hZero : ∀ c', w.seatOf pid c' = 0 := fun c' => by simp [World.seatOf, hNone]
  obtain hEq | ⟨hLt, hEq⟩ := admit_cases w pid c m
  · rw [hEq] at hHeld ⊢
    intro r hr
    have hOne := hHeld r.code
    have hr' := hBounded r hr
    omega
  · rw [hEq] at hHeld ⊢
    intro r hr
    have hOne := hHeld r.code
    rw [hZero] at hOne
    have hr' := hBounded r hr
    change (w.setCount c (w.count c + 1)).count r.code ≤ (w.active r.id).length + held' r.code
    rw [count_setCount]
    split
    next hc =>
      have hTaken : World.seatOf { w.setCount c (w.count c + 1) with
          seat := Function.update w.seat pid (some c) } pid r.code = 1 := by
        simp [World.seatOf, hc]
      rw [hTaken] at hOne
      rw [hc] at hr' hOne ⊢
      omega
    · omega

theorem World.Bounded.countRelease {c : String} (hSeat : w.seat pid = some c)
    (hHeld : ∀ c', held c' + (release w pid c).shared.seatOf pid c' ≤ held' c' + w.seatOf pid c')
    (hBounded : w.Bounded held) : (release w pid c).shared.Bounded held' := by
  have hMine : ∀ c', w.seatOf pid c' = if c' = c then 1 else 0 := fun c' => by
    simp [World.seatOf, hSeat, eq_comm]
  have hGone : ∀ c', (release w pid c).shared.seatOf pid c' = 0 := fun c' => by
    unfold World.seatOf
    rw [(release_rows w pid c).2.2]
    simp
  obtain ⟨hRooms, hParts, -⟩ := release_rows w pid c
  intro r hr
  rw [hRooms] at hr
  have hOne := hHeld r.code
  rw [hGone, hMine] at hOne
  have hr' := hBounded r hr
  rw [World.active, hParts, ← World.active]
  by_cases hPos : 0 < w.count c
  · rw [release_eq hPos]
    change (w.setCount c (w.count c - 1)).count r.code ≤ (w.active r.id).length + held' r.code
    rw [count_setCount]
    split
    next hc =>
      rw [if_pos hc] at hOne
      rw [hc] at hr' hOne ⊢
      omega
    next hc =>
      rw [if_neg hc] at hOne
      omega
  · have hSame : (release w pid c).shared.count r.code = w.count r.code := by
      unfold release
      rw [if_pos (by omega)]
      rfl
    rw [hSame]
    split at hOne
    next hc =>
      rw [hc] at hr' hOne ⊢
      omega
    · omega

/-- The seats that the program takes and gives back are counted, and no more than these.
`hSeed` is what is known when a counter is set. -/
theorem World.Bounded.perform (hTables : Tables n w) (hAllowed : s.allows job o)
    (hFits : s.Fits w pid) (h : perform O w pid n o d = some out)
    (hHeld : ∀ c, held c + out.shared.seatOf pid c ≤ held' c + w.seatOf pid c)
    (hSeed : ∀ c m, o = .countInit c m → ∀ r ∈ w.rooms, r.code = c → m ≤ (w.active r.id).length)
    (hBounded : w.Bounded held) : out.shared.Bounded held' := by
  by_cases ho : o.seats = false
  · exact hBounded.steady (perform_steady ho h) hHeld
  cases o with
  | commit =>
    have hActive := perform_active_le h
    cases h
    obtain ⟨c, room, rfl⟩ | ⟨room, rfl⟩ := SeatPhase.allows_commit hAllowed
    · exact hBounded.commit_joining hTables hFits hHeld hActive
    · exact hBounded.commit_created hTables hFits hHeld hActive
  | countInit c m =>
    cases h
    exact hBounded.countInit hHeld (hSeed c m rfl)
  | countAdmit c m =>
    cases h
    obtain ⟨room, rfl, rfl⟩ := SeatPhase.allows_countAdmit hAllowed
    exact hBounded.countAdmit hFits.1 hHeld
  | countRelease c =>
    cases h
    obtain rfl := SeatPhase.allows_countRelease hAllowed
    exact hBounded.countRelease hFits.1 hHeld
  | _ => exact absurd rfl ho

end

/-- Outside of `held` the program has no seat. -/
def Turn.Fits (w : World) (pid : Nat) (s : Turn) : Prop := s = .held ∨ w.seat pid = none

theorem perform_error (h : perform O w pid n o d = some out) {e : Exn} (he : out.result = .error e) :
    e = .integrity ∧ out.shared = w := by
  cases o with
  | flush wr =>
    obtain rfl | ⟨-, rfl⟩ := flushWrite_cases h
    · cases he
      exact ⟨rfl, rfl⟩
    · cases he
  | countAdmit c m =>
    cases h
    unfold capacityAdmit at he
    split at he <;> cases he
  | countRelease c =>
    cases h
    unfold release at he
    split at he <;> cases he
  | _ =>
    cases h
    cases he

theorem exec_error (h : exec O w job pid n o d = some out) {e : Exn} (he : out.result = .error e) :
    e = .integrity ∧ out.shared = w ∨ e = .fault := by
  obtain ⟨-, hOk⟩ | ⟨hErr, -⟩ := exec_cases h
  · exact .inl (perform_error hOk he)
  · rw [hErr] at he
    cases he
    exact .inr rfl

variable {u : Turn}

theorem turn_perform (hAllowed : u.allows job o) (hFits : u.Fits w pid)
    (h : perform O w pid n o d = some out) {a : o.Res} (ha : out.result = .ok a) :
    (u.next o out.result).Fits out.shared pid := by
  rw [ha]
  by_cases ho : o.seats = false
  · have hSeat := (perform_steady ho h).seat
    have hNext : u.next o (.ok a) = u := by
      cases u <;> cases o <;> first | rfl | cases ho
    rw [hNext]
    unfold Turn.Fits
    rw [hSeat]
    exact hFits
  cases o with
  | commit =>
    cases h
    exact .inr (by rw [(committed w pid).seat, Function.update_self])
  | countInit c m =>
    cases h
    have hNext : u.next (.countInit c m) (.ok a) = u := by cases u <;> rfl
    rw [hNext]
    exact hFits
  | countRelease c =>
    cases h
    exact .inr (by rw [(release_rows w pid c).2.2, Function.update_self])
  | countAdmit c m =>
    cases h
    obtain ⟨rfl, -⟩ := hAllowed
    have hNone : w.seat pid = none := hFits.resolve_left (by simp)
    by_cases hFull : m ≤ w.count c
    · rw [capacityAdmit, if_pos hFull]
      exact .inr hNone
    · rw [capacityAdmit, if_neg hFull] at ha
      cases ha
      have hSeated : (w.count c + 1 : Int) ≠ -1 := by omega
      have hNext : Turn.free.next (.countAdmit c m) (.ok (w.count c + 1 : Int)) = .held := by
        simp only [Turn.next, if_neg hSeated]
      exact .inl hNext
  | _ => exact absurd rfl ho

theorem turn_exec (hAllowed : u.allows job o) (hFits : u.Fits w pid)
    (h : exec O w job pid n o d = some out)
    (hCond : ∀ e, out.result = .error e → out.shared.seat pid = none ∨ Turn.expected o e = true) :
    (u.next o out.result).Fits out.shared pid := by
  cases hRes : out.result with
  | ok a =>
    obtain ⟨-, hOk⟩ | ⟨hErr, -⟩ := exec_cases h
    · rw [← hRes]
      exact turn_perform hAllowed hFits hOk hRes
    · rw [hErr] at hRes
      cases hRes
  | error e =>
    obtain hNone | hExpected := hCond e hRes
    · exact .inr hNone
    · have hNext : u.next o (.error e) = u := by rw [Turn.next, if_pos hExpected]
      rw [hNext]
      obtain ⟨-, hSame⟩ | rfl := exec_error h hRes
      · rw [hSame]
        exact hFits
      · cases o with
        | flush wr => cases wr <;> cases hExpected
        | _ => cases hExpected

end

section

variable {O : Outside} {S S' : SysState} {pid : Nat} {v : World} {job : Job} {prog : Coro Ret}

/-- The seat that the program has after its call is counted, as the program has not ended. -/
theorem held_ge (hSeat : ∀ q, q ≠ pid → v.seat q = S.shared.seat q)
    (hPid : pid < S.procs.length) (hRun : v.seat pid ≠ none → ∃ o k, prog = .call o k) (c : String) :
    (holders S c).card + v.seatOf pid c ≤
      (holders ⟨v, S.procs.set pid ⟨job, prog⟩⟩ c).card + S.shared.seatOf pid c := by
  have hSub : (holders S c).erase pid ∪ (if v.seat pid = some c then {pid} else ∅) ⊆
      holders ⟨v, S.procs.set pid ⟨job, prog⟩⟩ c := by
    intro q hq
    obtain hq | hq := Finset.mem_union.mp hq
    · obtain ⟨hNe, hMem⟩ := Finset.mem_erase.mp hq
      obtain ⟨hHeld, hRunning⟩ := mem_holders.mp hMem
      refine mem_holders.mpr ⟨(hSeat q hNe).trans hHeld, ?_⟩
      rwa [running_set hNe]
    · split at hq
      next hMine =>
        obtain rfl := Finset.mem_singleton.mp hq
        obtain ⟨o, k, rfl⟩ := hRun (by simp [hMine])
        refine mem_holders.mpr ⟨hMine, ?_⟩
        simp [running, List.getElem?_set_self hPid]
      · cases hq
  have hLe := Finset.card_le_card hSub
  have hErase : (holders S c).card ≤ ((holders S c).erase pid).card + S.shared.seatOf pid c := by
    unfold World.seatOf
    split
    · have hPred : (holders S c).card - 1 ≤ ((holders S c).erase pid).card :=
        Finset.pred_card_le_card_erase
      omega
    next hNot => rw [Finset.erase_eq_of_notMem fun hMem => hNot (mem_holders.mp hMem).1, Nat.add_zero]
  have hUnion : ((holders S c).erase pid ∪ (if v.seat pid = some c then {pid} else ∅)).card =
      ((holders S c).erase pid).card + v.seatOf pid c := by
    unfold World.seatOf
    split
    · rw [Finset.card_union_of_disjoint (by simp), Finset.card_singleton]
    · simp
  omega

/-- At this step the admission of the program was refused, in a room that was full. -/
structure RefusedAt (O : Outside) (quizzes : List Quiz) (pid : Nat) (task : Job) (code : String)
    (S₀ S : SysState) : Prop where
  before : (rooms O).Reach (fun S l => seatsSettled O S l = true) (initial quizzes) S₀
  admission : ∃ m k, S₀.procs[pid]? = some ⟨task, .call (.countAdmit code m) k⟩
  after : ∃ d S₁, (rooms O).step S₀ (.op pid d) = some S₁ ∧
    (rooms O).Reach (fun S l => seatsSettled O S l = true) S₁ S
  full : ∃ r ∈ S₀.shared.rooms, r.code = code ∧
    r.maxPlayers ≤ (S₀.shared.active r.id).length + (holders S₀ code).card

structure Accounted (O : Outside) (quizzes : List Quiz) (S : SysState) : Prop where
  housed : Housed S
  turns : ∀ pid pr, S.procs[pid]? = some pr → ∃ u : Turn, Turns pr.task Turn.Ends u pr.prog ∧
    u.Fits S.shared pid ∧ (∀ e, u = .raised e → isFull e = false) ∧
    ∀ c m, u = .full c m → (∃ nickname ip user, pr.task = .joinRoom c nickname ip user) ∧
      ∃ S₀, RefusedAt O quizzes pid pr.task c S₀ S
  seeding : ∀ (pid : Nat) t c n (k : Except Exn Unit → Coro Ret),
    S.procs[pid]? = some ⟨t, .call (.countInit c n) k⟩ → ∀ r ∈ S.shared.rooms, r.code = c →
      n ≤ (S.shared.active r.id).length
  bounded : S.shared.Bounded fun c => (holders S c).card

variable {quizzes : List Quiz} {o : Op} {k : Except Exn o.Res → Coro Ret} {d : Decision}
  {out : Answer o} {t : Job} {l : SysLabel} {u : Turn} {c : String} {m : Nat}

theorem RefusedAt.tail {S₀ : SysState} (h : RefusedAt O quizzes pid t c S₀ S)
    (hCond : seatsSettled O S l = true) (hStep : (rooms O).step S l = some S') :
    RefusedAt O quizzes pid t c S₀ S' := by
  obtain ⟨d, S₁, hFirst, hReach⟩ := h.after
  exact ⟨h.before, h.admission, ⟨d, S₁, hFirst, hReach.tail hCond hStep⟩, h.full⟩

theorem Turn.next_ok {a : o.Res} (hAllowed : u.allows t o) : u.next o (.ok a) = u ∨
    u.next o (.ok a) = .free ∨ u.next o (.ok a) = .held ∨
    ∃ c m, o = .countAdmit c m ∧ u.next o (.ok a) = .full c m := by
  cases o with
  | countAdmit c m =>
    obtain ⟨rfl, -⟩ := hAllowed
    simp only [Turn.next]
    split
    · exact .inr (.inr (.inr ⟨c, m, rfl, rfl⟩))
    · exact .inr (.inr (.inl rfl))
  | commit => cases u <;> first | exact .inl rfl | exact .inr (.inl rfl)
  | countRelease c => cases u <;> first | exact .inl rfl | exact .inr (.inl rfl)
  | _ => cases u <;> exact .inl rfl

theorem settled_spec (hCond : seatsSettled O S (.op pid d) = true)
    (hProc : S.procs[pid]? = some ⟨t, .call o k⟩)
    (hExec : exec O S.shared t pid S.procs.length o d = some out) {e : Exn}
    (he : out.result = .error e) : out.shared.seat pid = none ∨ Turn.expected o e = true := by
  obtain ⟨v, res, sp⟩ := out
  cases he
  simpa [seatsSettled, hProc, hExec] using hCond

/-- Refusing takes a full counter, and the counter does not count too much. -/
theorem Accounted.refused (h : Accounted O quizzes S)
    (hReach : (rooms O).Reach (fun S l => seatsSettled O S l = true) (initial quizzes) S)
    {k : Except Exn Int → Coro Ret} {out : Answer (.countAdmit c m)}
    (hProc : S.procs[pid]? = some ⟨t, .call (.countAdmit c m) k⟩)
    (hExec : exec O S.shared t pid S.procs.length (.countAdmit c m) d = some out)
    (hFull : out.result = .ok (-1)) (hStep : (rooms O).step S (.op pid d) = some S') :
    RefusedAt O quizzes pid t c S S' := by
  refine ⟨hReach, ⟨m, k, hProc⟩, ⟨d, S', hStep, .refl⟩, ?_⟩
  obtain ⟨s, hSeats, hFits⟩ := h.housed.fits pid _ hProc
  obtain ⟨room, rfl, rfl⟩ := SeatPhase.allows_countAdmit hSeats.1
  obtain ⟨-, -, r, hr, hCode, -, hMax⟩ := hFits
  refine ⟨r, hr, hCode, ?_⟩
  have hCount : room.maxPlayers ≤ S.shared.count c := by
    by_contra hLt
    obtain ⟨-, hOk⟩ | ⟨hErr, -⟩ := exec_cases hExec
    · cases hOk
      rw [capacityAdmit, if_neg hLt] at hFull
      have hValue : (S.shared.count c + 1 : Int) = -1 := Except.ok.inj hFull
      omega
    · rw [hErr] at hFull
      cases hFull
  have hBounded := h.bounded r hr
  rw [hCode] at hBounded
  dsimp only at hBounded
  omega

theorem accounted_turns (h : Accounted O quizzes S)
    (hReach : (rooms O).Reach (fun S l => seatsSettled O S l = true) (initial quizzes) S)
    (hCond : seatsSettled O S (.op pid d) = true)
    (hProc : S.procs[pid]? = some ⟨t, .call o k⟩)
    (hExec : exec O S.shared t pid S.procs.length o d = some out)
    (hStep : (rooms O).step S (.op pid d) = some S') :
    ∃ u : Turn, Turns t Turn.Ends u (k out.result) ∧ u.Fits out.shared pid ∧
      (∀ e, u = .raised e → isFull e = false) ∧
      ∀ c m, u = .full c m → (∃ nickname ip user, t = .joinRoom c nickname ip user) ∧
        ∃ S₀, RefusedAt O quizzes pid t c S₀ S' := by
  obtain ⟨u, hTurns, hFits, hRaised, hFull⟩ := h.turns pid _ hProc
  have hKept : ∀ c m, u = .full c m → (∃ nickname ip user, t = .joinRoom c nickname ip user) ∧
      ∃ S₀, RefusedAt O quizzes pid t c S₀ S' := by
    intro c m hu
    obtain ⟨hJob, S₀, hAt⟩ := hFull c m hu
    exact ⟨hJob, S₀, hAt.tail hCond hStep⟩
  refine ⟨u.next o out.result, hTurns.2 out.result,
    turn_exec hTurns.1 hFits hExec fun e he => settled_spec hCond hProc hExec he, ?_, ?_⟩
  · intro e hNext
    cases hRes : out.result with
    | ok a =>
      rw [hRes] at hNext
      obtain hSame | hFree | hHeld | ⟨c, m, -, hNew⟩ := Turn.next_ok (a := a) hTurns.1
      · exact hRaised e (hSame.symm.trans hNext)
      · rw [hFree] at hNext
        cases hNext
      · rw [hHeld] at hNext
        cases hNext
      · rw [hNew] at hNext
        cases hNext
    | error e' =>
      rw [hRes, Turn.next] at hNext
      split at hNext
      · exact hRaised e hNext
      · cases hNext
        obtain ⟨rfl, -⟩ | rfl := exec_error hExec hRes
        · rfl
        · rfl
  · intro c m hNext
    cases hRes : out.result with
    | ok a =>
      rw [hRes] at hNext
      obtain hSame | hFree | hHeld | ⟨c', m', rfl, hNew⟩ := Turn.next_ok (a := a) hTurns.1
      · exact hKept c m (hSame.symm.trans hNext)
      · rw [hFree] at hNext
        cases hNext
      · rw [hHeld] at hNext
        cases hNext
      · rw [hNew] at hNext
        cases hNext
        obtain ⟨rfl, hJob⟩ := hTurns.1
        refine ⟨hJob, S, h.refused hReach hProc hExec ?_ hStep⟩
        rw [hRes]
        simp only [Turn.next] at hNew
        split at hNew
        next hMinus => rw [hMinus]
        · cases hNew
    | error e' =>
      rw [hRes, Turn.next] at hNext
      split at hNext
      · exact hKept c m hNext
      · cases hNext

theorem exec_active_le (hExec : exec O S.shared t pid S.procs.length o d = some out) (i : Id) :
    (S.shared.active i).length ≤ (out.shared.active i).length := by
  obtain ⟨-, hEq⟩ | ⟨a, -, ha, hEq⟩ := exec_effect hExec
  · rw [hEq]
  · rw [hEq]
    exact perform_active_le ha i

/-- A count that is about to be set is behind the participants that have joined since. -/
theorem accounted_seeding (h : Accounted O quizzes S) (hProc : S.procs[pid]? = some ⟨t, .call o k⟩)
    (hExec : exec O S.shared t pid S.procs.length o d = some out) {q : Nat} {t' : Job} {n : Nat}
    {k' : Except Exn Unit → Coro Ret}
    (hq : (S.procs.set pid ⟨t, k out.result⟩)[q]? = some ⟨t', .call (.countInit c n) k'⟩) {r : Room}
    (hr : r ∈ out.shared.rooms) (hCode : r.code = c) : n ≤ (out.shared.active r.id).length := by
  have hPid := (List.getElem?_eq_some_iff.mp hProc).1
  have hHoused := housed_op h.housed hProc hExec
  have hKept := (exec_leaves hExec).kept
  have hSame : ∀ r₀ ∈ S.shared.rooms, r₀.code = c → r.id = r₀.id := by
    intro r₀ hr₀ hCode₀
    obtain ⟨r', hr', hId, hCode', -⟩ := hKept r₀ hr₀
    rw [hHoused.tables.room_eq hr hr' (.inr (hCode.trans (hCode'.trans hCode₀).symm)), hId]
  by_cases hEq : q = pid
  · subst hEq
    rw [List.getElem?_set_self hPid] at hq
    have hNext : k out.result = .call (.countInit c n) k' := by
      injection hq with hq
      injection hq
    obtain ⟨s, hSeats, hFits⟩ := h.housed.fits q _ hProc
    have hOn := hSeats.2 out.result
    rw [hNext] at hOn
    have hPhase : s.next o out.result = .seeding c n := SeatPhase.allows_countInit hOn.1
    obtain ⟨-, hOk⟩ | ⟨hErr, -⟩ := exec_cases hExec
    · obtain ⟨room, rfl, rfl, -⟩ | ⟨room, -, -, -, rfl⟩ := SeatPhase.next_seeding hSeats.1 hPhase
      · cases hOk
        cases hPhase
        obtain ⟨-, -, r₀, hr₀, hCode₀, hId₀, -⟩ := hFits
        rw [hSame r₀ hr₀ hCode₀, hId₀]
        exact (List.length_insertionSort _ _).le
      · exact Nat.zero_le _
    · rw [hErr, next_fault] at hPhase
      cases hPhase
  · rw [List.getElem?_set_ne (Ne.symm hEq)] at hq
    obtain ⟨s, hSeats, hFits⟩ := h.housed.fits q _ hq
    have hPhase := SeatPhase.allows_countInit hSeats.1
    subst hPhase
    obtain ⟨-, -, r₀, hr₀, hCode₀⟩ := hFits
    rw [hSame r₀ hr₀ hCode₀]
    exact (h.seeding q t' c n k' hq r₀ hr₀ hCode₀).trans (exec_active_le hExec r₀.id)

theorem accounted_bounded (h : Accounted O quizzes S)
    (hProc : S.procs[pid]? = some ⟨t, .call o k⟩)
    (hExec : exec O S.shared t pid S.procs.length o d = some out)
    (hTurns : ∃ u : Turn, Turns t Turn.Ends u (k out.result) ∧ u.Fits out.shared pid) :
    out.shared.Bounded fun c => (holders ⟨out.shared, S.procs.set pid ⟨t, k out.result⟩⟩ c).card := by
  obtain ⟨s, hSeats, hFits⟩ := h.housed.fits pid _ hProc
  have hPid := (List.getElem?_eq_some_iff.mp hProc).1
  have hRun : out.shared.seat pid ≠ none → ∃ o' k', k out.result = .call o' k' := by
    intro hSeat
    obtain ⟨u, hEnds, hHolds⟩ := hTurns
    obtain rfl := hHolds.resolve_right hSeat
    cases hRest : k out.result with
    | done r =>
      rw [hRest] at hEnds
      exact False.elim hEnds
    | call o' k' => exact ⟨o', k', rfl⟩
  have hHeld : ∀ c, (holders S c).card + out.shared.seatOf pid c ≤
      (holders ⟨out.shared, S.procs.set pid ⟨t, k out.result⟩⟩ c).card + S.shared.seatOf pid c :=
    held_ge (exec_leaves hExec).seat hPid hRun
  obtain ⟨-, hEq⟩ | ⟨a, -, ha, hEq⟩ := exec_effect hExec
  · intro r hr
    rw [hEq] at hr
    have hOne := hHeld r.code
    have hr' := h.bounded r hr
    rw [hEq] at hOne ⊢
    dsimp only at hr' ⊢
    omega
  · rw [hEq] at hHeld ⊢
    refine World.Bounded.perform h.housed.tables hSeats.1 hFits ha hHeld ?_ h.bounded
    rintro c m rfl r hr hCode
    exact h.seeding pid t c m k hProc r hr hCode

theorem accounted_op (h : Accounted O quizzes S)
    (hReach : (rooms O).Reach (fun S l => seatsSettled O S l = true) (initial quizzes) S)
    (hCond : seatsSettled O S (.op pid d) = true)
    (hProc : S.procs[pid]? = some ⟨t, .call o k⟩)
    (hExec : exec O S.shared t pid S.procs.length o d = some out)
    (hStep : (rooms O).step S (.op pid d) = some ⟨out.shared, S.procs.set pid ⟨t, k out.result⟩⟩) :
    Accounted O quizzes ⟨out.shared, S.procs.set pid ⟨t, k out.result⟩⟩ := by
  have hPid := (List.getElem?_eq_some_iff.mp hProc).1
  obtain ⟨u, hTurns, hFits, hRest⟩ := accounted_turns h hReach hCond hProc hExec hStep
  refine ⟨housed_op h.housed hProc hExec, ?_, ?_, accounted_bounded h hProc hExec ⟨u, hTurns, hFits⟩⟩
  · intro q pr hq
    by_cases hEq : q = pid
    · subst hEq
      rw [List.getElem?_set_self hPid] at hq
      cases hq
      exact ⟨u, hTurns, hFits, hRest⟩
    · rw [List.getElem?_set_ne (Ne.symm hEq)] at hq
      obtain ⟨u', hTurns', hFits', hRaised', hFull'⟩ := h.turns q pr hq
      refine ⟨u', hTurns', ?_, hRaised', fun c m hu => ?_⟩
      · unfold Turn.Fits
        rw [(exec_leaves hExec).seat q hEq]
        exact hFits'
      · obtain ⟨hJob, S₀, hAt⟩ := hFull' c m hu
        exact ⟨hJob, S₀, hAt.tail hCond hStep⟩
  · intro q t' c n k' hq r hr hCode
    exact accounted_seeding h hProc hExec hq hr hCode

theorem env_active_ge {e : EnvAction} {out : World × Option Job}
    (hEnv : env S.shared S.procs.length e = some out) (hCond : seatsSettled O S (.env e) = true)
    (i : Id) : (S.shared.active i).length ≤ (out.1.active i).length := by
  cases e with
  | kick j =>
    cases hEnv
    unfold World.active updateWhere
    rw [← List.countP_eq_length_filter, ← List.countP_eq_length_filter, List.countP_map]
    refine List.countP_mono_left fun p hp hActive => ?_
    simp only [Function.comp]
    split
    next hId =>
      have hOut := List.all_eq_true.mp hCond p hp
      have hRoom : p.roomId = i := (of_decide_eq_true hActive).1
      rw [hRoom, hActive] at hOut
      simp [hId] at hOut
    · exact hActive
  | _ =>
    cases hEnv
    exact le_rfl

theorem accounted_env {e : EnvAction} {out : World × Option Job} (h : Accounted O quizzes S)
    (hCond : seatsSettled O S (.env e) = true)
    (hEnv : env S.shared S.procs.length e = some out)
    (hStep : (rooms O).step S (.env e) = some ⟨out.1, S.procs ++ out.2.toList.map (rooms O).start⟩) :
    Accounted O quizzes ⟨out.1, S.procs ++ out.2.toList.map (rooms O).start⟩ := by
  have hAside := env_aside hEnv
  have hActive := env_active_ge hEnv hCond
  refine ⟨housed_env h.housed hEnv, ?_, ?_, ?_⟩
  · intro q pr hq
    obtain hOld | ⟨rfl, j, -, rfl⟩ := getElem?_append_spawned hq
    · obtain ⟨u, hTurns, hFits, hRaised, hFull⟩ := h.turns q pr hOld
      refine ⟨u, hTurns, ?_, hRaised, fun c m hu => ?_⟩
      · unfold Turn.Fits
        rw [hAside.seat]
        exact hFits
      · obtain ⟨hJob, S₀, hAt⟩ := hFull c m hu
        exact ⟨hJob, S₀, hAt.tail hCond hStep⟩
    · refine ⟨.free, jobBody_turns O j, .inr ?_, fun e he => ?_, fun c m hu => ?_⟩
      · rw [hAside.seat]
        exact (h.housed.tables.unused S.procs.length le_rfl).1
      · cases he
      · cases hu
  · intro q t c n k hq r' hr' hCode'
    obtain hOld | ⟨-, j, -, hj⟩ := getElem?_append_spawned hq
    · obtain ⟨r, hr, hId, hCode, -⟩ := hAside.back r' hr'
      rw [hId]
      exact (h.seeding q t c n k hOld r hr (hCode.symm.trans hCode')).trans (hActive r.id)
    · have hBody := jobBody_seats O j
      have hProg : jobBody O j = .call (.countInit c n) k := by
        injection hj with _ hj
        exact hj.symm
      rw [hProg] at hBody
      have hAllowed : SeatPhase.allows j .idle (.countInit c n) := hBody.1
      cases SeatPhase.allows_countInit hAllowed
  · intro r' hr'
    obtain ⟨r, hr, hId, hCode, -⟩ := hAside.back r' hr'
    have hOld := h.bounded r hr
    have hMore := hActive r.id
    dsimp only at hOld ⊢
    rw [hId, hCode, holders_env h.housed hEnv]
    unfold World.count at hOld ⊢
    rw [hAside.counter]
    omega

theorem accounted_reach
    (h : (rooms O).Reach (fun S l => seatsSettled O S l = true) (initial quizzes) S) :
    Accounted O quizzes S := by
  induction h with
  | refl =>
    constructor
    · constructor
      · constructor <;> simp [initial]
      · intro q pr hq
        cases hq
    · intro q pr hq
      cases hq
    · intro q t c m k hq
      cases hq
    · intro r hr
      cases hr
  | tail hReach hCond hStep ih =>
    obtain ⟨pid, d, t, o, k, out, rfl, hProc, hExec, rfl⟩ | ⟨e, out, rfl, hEnv, rfl⟩ :=
      Machine.step_cases hStep
    · have hExec' : exec O _ t pid _ o d = some out := hExec
      have hSpawned : out.spawned = none := exec_spawned hExec'
      rw [hSpawned, Option.toList_none, List.map_nil, List.append_nil] at hStep ⊢
      exact accounted_op ih hReach hCond hProc hExec hStep
    · exact accounted_env ih hCond hEnv hStep

/-- While every join that raises has given its seat back and nobody active is kicked: a
join that answers `ROOM_FULL` was refused in a state in which the active participants of
the room and the joins under way in it filled the room. -/
theorem room_full_only_when_full
    (h : (rooms O).Reach (fun S l => seatsSettled O S l = true) (initial quizzes) S)
    {code nickname ip : String} {user : Option User} {e : Exn}
    (hProc : S.procs[pid]? = some ⟨.joinRoom code nickname ip user, .done (.error e)⟩)
    (hFull : isFull e = true) :
    ∃ S₀, RefusedAt O quizzes pid (.joinRoom code nickname ip user) code S₀ S := by
  obtain ⟨u, hTurns, -, hRaised, hAt⟩ := (accounted_reach h).turns pid _ hProc
  cases u with
  | free =>
    have hEnds : isFull e = false := hTurns
    rw [hFull] at hEnds
    cases hEnds
  | full c m =>
    obtain ⟨⟨_, _, _, hJob⟩, S₀, hRefused⟩ := hAt c m rfl
    cases hJob
    exact ⟨S₀, hRefused⟩
  | held => exact False.elim hTurns
  | raised e' =>
    obtain rfl : e = e' := hTurns
    rw [hRaised e rfl] at hFull
    cases hFull

end

namespace Demo

/-- Ann joins, somebody else tries her nickname, and Cy finds the room full after Bob. -/
def filled : List SysLabel :=
  opened ++ [join "ann"] ++ calls 1 12 200 ++ [join "ann"] ++ calls 2 8 300 ++ [join "bob"] ++
    calls 3 12 400 ++ [join "cy"] ++ calls 4 4 500

def wasted : List SysLabel :=
  opened ++ [join "ann"] ++ calls 1 7 200 ++ [.op 1 { fault := .fail }, .op 1 {}] ++ [join "bob"] ++
    calls 2 12 300 ++ [join "cy"]

def refused : Exn :=
  .auth "ROOM_FULL" 409 "room is at capacity" [("code", "R2D2C3"), ("max_players", "2")]

def cyJob : Job := .joinRoom "R2D2C3" "cy" "10.0.0.1" none

end Demo

def nextCall (S : SysState) (pid : Nat) : Option (Job × Op) :=
  match S.procs[pid]? with
  | some ⟨t, .call o _⟩ => some (t, o)
  | _ => none

def outcome (S : SysState) (pid : Nat) : Option (Job × Except Exn Ret) :=
  match S.procs[pid]? with
  | some ⟨t, .done r⟩ => some (t, r)
  | _ => none

theorem outcome_eq_some {S : SysState} {pid : Nat} {t : Job} {r : Except Exn Ret}
    (h : outcome S pid = some (t, r)) : S.procs[pid]? = some ⟨t, .done r⟩ := by
  unfold outcome at h
  split at h
  next hProc =>
    cases h
    exact hProc
  · cases h

theorem room_full_only_when_full_cy : ∃ S₀ S : SysState,
    S.procs[4]? = some ⟨Demo.cyJob, .done (.error Demo.refused)⟩ ∧
    RefusedAt Demo.outside [⟨5, 7, true⟩] 4 Demo.cyJob "R2D2C3" S₀ S := by
  have hRun : ((rooms Demo.outside).runWhile (seatsSettled Demo.outside) (initial [⟨5, 7, true⟩])
      Demo.filled).any (fun S => outcome S 4 = some (Demo.cyJob, .error Demo.refused)) = true := by
    decide +kernel
  obtain ⟨S, hReach, hS⟩ := Machine.Reach.exists_of_runWhile hRun
  have hProc := outcome_eq_some (of_decide_eq_true hS)
  obtain ⟨S₀, hAt⟩ := room_full_only_when_full hReach hProc rfl
  exact ⟨S₀, S, hProc, hAt⟩

/-- Cy is refused in a room for two with one participant and no other join under way. -/
theorem phantom_seat : ∃ S₀ S : SysState,
    (rooms Demo.outside).Reach (fun _ _ => True) (initial [⟨5, 7, true⟩]) S₀ ∧
    nextCall S₀ 3 = some (Demo.cyJob, .countAdmit "R2D2C3" 2) ∧
    (∀ r ∈ S₀.shared.rooms, r.maxPlayers = 2 ∧ (S₀.shared.active r.id).length = 1 ∧
      holders S₀ r.code = ∅) ∧
    (rooms Demo.outside).run S₀ (Demo.calls 3 2 402) = some S ∧
    outcome S 3 = some (Demo.cyJob, .error Demo.refused) := by
  have hRun : ((rooms Demo.outside).run (initial [⟨5, 7, true⟩]) (Demo.wasted ++ Demo.calls 3 2 400)).any
      (fun S₀ => nextCall S₀ 3 = some (Demo.cyJob, .countAdmit "R2D2C3" 2) ∧
        (∀ r ∈ S₀.shared.rooms, r.maxPlayers = 2 ∧ (S₀.shared.active r.id).length = 1 ∧
          holders S₀ r.code = ∅) ∧
        ((rooms Demo.outside).run S₀ (Demo.calls 3 2 402)).any
          (fun S => outcome S 3 = some (Demo.cyJob, .error Demo.refused)) = true) = true := by
    decide +kernel
  obtain ⟨S₀, hReach, hS₀⟩ := Machine.Reach.exists_of_run hRun
  obtain ⟨hCall, hRoom, hEnd⟩ := of_decide_eq_true hS₀
  obtain ⟨S, hS, hOut⟩ := (Option.any_eq_true _ _).mp hEnd
  exact ⟨S₀, S, hReach, hCall, hRoom, hS, of_decide_eq_true hOut⟩

end LiveQuiz.Rooms
