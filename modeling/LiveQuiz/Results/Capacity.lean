import LiveQuiz.Rooms.Seats
import LiveQuiz.Lib.Contract
import LiveQuiz.Protocol.Tables
import Mathlib.Data.Finset.Card

/-! # Room capacity

The counter of a room covers its active participants and the seats of the joins still
under way, as long as nobody sets it to a count taken in between.
-/

namespace LiveQuiz.Rooms

open Coroutine

set_option autoImplicit false

def running (S : SysState) (pid : Nat) : Bool :=
  match S.procs[pid]? with
  | some ⟨_, .call _ _⟩ => true
  | _ => false

/-- The programs under way that hold a seat of the room with this code. -/
def holders (S : SysState) (code : String) : Finset Nat :=
  (Finset.range S.procs.length).filter fun pid => S.shared.seat pid = some code ∧ running S pid = true

def seeds (S : SysState) (code : String) (pid : Nat) : Bool :=
  match S.procs[pid]? with
  | some ⟨_, .call (.countInit c _) _⟩ => c = code
  | _ => false

/-- No seat is taken between the count for a counter and its setting, and a snapshot counts
the participants of a room while no join holds a seat of it. -/
def countsSettled (S : SysState) : SysLabel → Bool
  | .op pid d =>
    match S.procs[pid]? with
    | some ⟨_, .call (.countAdmit c _) _⟩ =>
      d.fault = .fail || (List.range S.procs.length).all fun q => !seeds S c q
    | some ⟨.buildSnapshot c, .call (.activeParticipants _) _⟩ => d.fault ≠ .none || holders S c = ∅
    | _ => true
  | .env _ => true

/-- Two rows of `rooms` differ in both keys. -/
def Room.Apart (a b : Room) : Prop := a.id ≠ b.id ∧ a.code ≠ b.code

/-- The counter of every room covers its participants and the `held` seats. -/
def World.Covered (w : World) (held : String → Nat) : Prop :=
  ∀ r ∈ w.rooms, (w.active r.id).length + held r.code ≤ w.count r.code ∧
    w.count r.code ≤ r.maxPlayers

/-- The rooms, the open transactions on them and who refers to them; `n` programs have
been started. -/
structure Tables (n : Nat) (w : World) : Prop where
  rooms : w.rooms.Pairwise Room.Apart
  fresh : ∀ pid a, .room a ∈ w.tx pid → ∀ b ∈ w.rooms, a.Apart b
  apart : ∀ p q a b, p ≠ q → .room a ∈ w.tx p → .room b ∈ w.tx q → a.Apart b
  housed : ∀ p ∈ w.participants, ∃ r ∈ w.rooms, r.id = p.roomId
  unused : ∀ pid, n ≤ pid → w.seat pid = none ∧ w.tx pid = []
  holder : ∀ pid c, w.seat pid = some c → ∃ r ∈ w.rooms, r.code = c
  unborn : ∀ c, (∀ r ∈ w.rooms, r.code ≠ c) → w.counter c = none

/-- Every run keeps the tables in order, and its programs in a phase that fits them. -/
structure Housed (S : SysState) : Prop where
  tables : Tables S.procs.length S.shared
  fits : ∀ pid pr, S.procs[pid]? = some pr →
    ∃ s : SeatPhase, Seats pr.task (fun _ _ => True) s pr.prog ∧ s.Fits S.shared pid

structure Seating (S : SysState) : Prop where
  tables : Tables S.procs.length S.shared
  fits : ∀ pid pr, S.procs[pid]? = some pr →
    ∃ s : SeatPhase, Seats pr.task (fun _ _ => True) s pr.prog ∧ s.Fits S.shared pid
  seeding : ∀ (pid : Nat) t c n (k : Except Exn Unit → Coro Ret),
    S.procs[pid]? = some ⟨t, .call (.countInit c n) k⟩ → ∀ r ∈ S.shared.rooms, r.code = c →
      (S.shared.active r.id).length ≤ n ∧ n ≤ r.maxPlayers ∧ holders S c = ∅
  covered : S.shared.Covered fun c => (holders S c).card

section

variable {O : Outside} {w v : World} {pid n : Nat} {job : Job} {o : Op} {d : Decision}
  {out : Answer o} {s : SeatPhase}

theorem Tables.room_eq (h : Tables n w) {a b : Room} (ha : a ∈ w.rooms) (hb : b ∈ w.rooms)
    (hKey : a.id = b.id ∨ a.code = b.code) : a = b := by
  refine eq_of_pairwise h.rooms (fun a b hab => ⟨hab.1.symm, hab.2.symm⟩) ha hb ?_
  rintro ⟨hId, hCode⟩
  exact hKey.elim hId hCode

theorem Tables.unhoused (h : Tables n w) {i : Id} (hFresh : ∀ b ∈ w.rooms, i ≠ b.id) :
    w.participants.filter (World.isActive i) = [] := by
  rw [List.filter_eq_nil_iff]
  intro p hp hActive
  obtain ⟨b, hb, hId⟩ := h.housed p hp
  have hIn : p.roomId = i := (of_decide_eq_true hActive).1
  exact hFresh b hb (hIn.symm.trans hId.symm)

theorem flushed_room {a : Room} (hCollides : (w.stored ++ w.tx pid).any ((Write.room a).collides O.lower) = false) :
    (∀ b ∈ w.rooms, a.Apart b) ∧ ∀ b, .room b ∈ w.tx pid → a.Apart b := by
  have hOne : ∀ b, .room b ∈ w.stored ++ w.tx pid → a.Apart b := by
    intro b hb
    have := List.any_eq_false.mp hCollides _ hb
    simpa [Write.collides, Room.Apart] using this
  refine ⟨fun b hb => hOne b ?_, fun b hb => hOne b (List.mem_append_right _ hb)⟩
  refine List.mem_append_left _ ?_
  simp [World.stored, hb]

theorem Tables.steady (hTables : Tables n w) (hSteady : Steady pid w v) (hPid : pid < n)
    (hTx : ∀ a, .room a ∈ v.tx pid → (∀ b ∈ w.rooms, a.Apart b) ∧
      ∀ q b, q ≠ pid → .room b ∈ w.tx q → a.Apart b) : Tables n v := by
  constructor
  · rw [hSteady.rooms]
    exact hTables.rooms
  · intro q a ha b hb
    rw [hSteady.rooms] at hb
    by_cases hq : q = pid
    · subst hq
      exact (hTx a ha).1 b hb
    · rw [hSteady.tx q hq] at ha
      exact hTables.fresh q a ha b hb
  · intro p q a b hpq ha hb
    by_cases hp : p = pid
    · subst hp
      rw [hSteady.tx q (Ne.symm hpq)] at hb
      exact (hTx a ha).2 q b (Ne.symm hpq) hb
    · rw [hSteady.tx p hp] at ha
      by_cases hq : q = pid
      · subst hq
        obtain ⟨hId, hCode⟩ := (hTx b hb).2 p a hp ha
        exact ⟨hId.symm, hCode.symm⟩
      · rw [hSteady.tx q hq] at hb
        exact hTables.apart p q a b hpq ha hb
  · rw [hSteady.participants, hSteady.rooms]
    exact hTables.housed
  · intro q hq
    rw [hSteady.seat, hSteady.tx q (by omega)]
    exact hTables.unused q hq
  · rw [hSteady.seat, hSteady.rooms]
    exact hTables.holder
  · rw [hSteady.counter, hSteady.rooms]
    exact hTables.unborn

theorem Tables.flush {wr : Write} {out : Answer (.flush wr)} (hTables : Tables n w) (hPid : pid < n)
    (h : perform O w pid n (.flush wr) d = some out) : Tables n out.shared := by
  have hSteady := perform_steady rfl h
  refine hTables.steady hSteady hPid fun a ha => ?_
  have hOld : .room a ∈ w.tx pid → (∀ b ∈ w.rooms, a.Apart b) ∧
      ∀ q b, q ≠ pid → .room b ∈ w.tx q → a.Apart b :=
    fun ha => ⟨hTables.fresh pid a ha, fun q b hq hb => hTables.apart pid q a b hq.symm ha hb⟩
  obtain rfl | ⟨⟨hCollides, hBlocked⟩, rfl⟩ := flushWrite_cases h
  · exact hOld ha
  · simp only [Function.update_self, List.mem_append, List.mem_singleton] at ha
    obtain ha | ha := ha
    · exact hOld ha
    · cases wr with
      | room row =>
        cases ha
        refine ⟨(flushed_room hCollides).1, fun q b hq hb => ?_⟩
        have hLt : q < n := by
          by_contra hGe
          rw [(hTables.unused q (by omega)).2] at hb
          cases hb
        have hOpen := List.any_eq_false.mp hBlocked q (List.mem_range.mpr hLt)
        have hApart : (w.tx q).any ((Write.room a).collides O.lower) = false := by
          simpa [hq] using hOpen
        simpa [Write.collides, Room.Apart] using List.any_eq_false.mp hApart _ hb
      | _ => cases ha

theorem quiet_rows {rest : List Write} (h : rest.all Write.quiet = true) :
    rest.filterMap Write.room? = [] ∧ rest.filterMap Write.participant? = [] := by
  simp only [List.filterMap_eq_nil_iff, ← forall₂_and]
  intro wr hwr
  have hQuiet := List.all_eq_true.mp h wr hwr
  cases wr <;> first | exact ⟨rfl, rfl⟩ | cases hQuiet

theorem commit_joining {c : String} {room : Room} (hFits : (SeatPhase.joining c room).Fits w pid) :
    ∃ p, p.roomId = room.id ∧ (w.commit pid).rooms = w.rooms ∧
      (w.commit pid).participants = w.participants ++ [p] ∧ World.isActive room.id p = true := by
  obtain ⟨-, -, p, rest, hw, hRoom, hRest, hLeft, hKicked⟩ := hFits
  obtain ⟨hRooms, hParts⟩ := quiet_rows hRest
  refine ⟨p, hRoom, ?_, ?_, decide_eq_true ⟨hRoom, by simp [hLeft], hKicked⟩⟩
  · rw [(committed w pid).rooms, hw]
    simp [Write.room?, hRooms, List.filterMap_cons]
  · rw [(committed w pid).participants, hw]
    simp [Write.participant?, hParts]

theorem commit_created {room : Room} (hFits : (SeatPhase.created room).Fits w pid) :
    (w.commit pid).rooms = w.rooms ++ [room] ∧
      (w.commit pid).participants = w.participants := by
  obtain ⟨-, rest, hw, hRest⟩ := hFits
  obtain ⟨hRooms, hParts⟩ := quiet_rows hRest
  constructor
  · rw [(committed w pid).rooms, hw]
    simp [Write.room?, hRooms]
  · rw [(committed w pid).participants, hw]
    simp [Write.participant?, hParts, List.filterMap_cons]

/-- The counters and seats move, nothing else does; a counter is touched for a room
that exists, and so is a seat. -/
theorem Tables.counted (hTables : Tables n w) (hPid : pid < n) (hRooms : v.rooms = w.rooms)
    (hParts : v.participants = w.participants) (hTx : v.tx = w.tx)
    (hSeat : ∀ q, q ≠ pid → v.seat q = w.seat q)
    (hHolder : ∀ c, v.seat pid = some c → ∃ r ∈ w.rooms, r.code = c)
    (hCounter : ∀ c, v.counter c = w.counter c ∨ ∃ r ∈ w.rooms, r.code = c) : Tables n v := by
  constructor
  · rw [hRooms]
    exact hTables.rooms
  · rw [hTx, hRooms]
    exact hTables.fresh
  · rw [hTx]
    exact hTables.apart
  · rw [hParts, hRooms]
    exact hTables.housed
  · intro q hq
    rw [hSeat q (by omega), hTx]
    exact hTables.unused q hq
  · intro q c hq
    rw [hRooms]
    by_cases hEq : q = pid
    · subst hEq
      exact hHolder c hq
    · rw [hSeat q hEq] at hq
      exact hTables.holder q c hq
  · intro c hc
    rw [hRooms] at hc
    obtain hSame | ⟨r, hr, hCode⟩ := hCounter c
    · rw [hSame]
      exact hTables.unborn c hc
    · exact absurd hCode (hc r hr)

theorem Tables.commit (hTables : Tables n w) (hPid : pid < n) (hAllowed : s.allows job .commit)
    (hFits : s.Fits w pid) : Tables n (w.commit pid) := by
  have hC := committed w pid
  have hSub : ∀ q a, .room a ∈ (w.commit pid).tx q → q ≠ pid ∧ .room a ∈ w.tx q := by
    intro q a ha
    rw [hC.tx] at ha
    by_cases hq : q = pid
    · subst hq
      simp at ha
    · exact ⟨hq, by simpa [hq] using ha⟩
  have hUnused : ∀ q, n ≤ q → (w.commit pid).seat q = none ∧ (w.commit pid).tx q = [] := by
    intro q hq
    rw [hC.seat, hC.tx, Function.update_of_ne (by omega), Function.update_of_ne (by omega)]
    exact hTables.unused q hq
  have hSeat : ∀ q c, (w.commit pid).seat q = some c → w.seat q = some c := by
    intro q c hq
    rw [hC.seat] at hq
    by_cases hEq : q = pid
    · subst hEq
      simp at hq
    · simpa [hEq] using hq
  cases s with
  | joining c room =>
    obtain ⟨p, hRoom, hRooms, hParts, -⟩ := commit_joining hFits
    obtain ⟨r, hr, hCode, hId, -⟩ := hFits.2.1
    constructor
    · rw [hRooms]
      exact hTables.rooms
    · intro q a ha b hb
      rw [hRooms] at hb
      exact hTables.fresh q a (hSub q a ha).2 b hb
    · intro q q' a b hq ha hb
      exact hTables.apart q q' a b hq (hSub q a ha).2 (hSub q' b hb).2
    · intro x hx
      rw [hRooms]
      rw [hParts, List.mem_append, List.mem_singleton] at hx
      obtain hx | rfl := hx
      · exact hTables.housed x hx
      · exact ⟨r, hr, hId.trans hRoom.symm⟩
    · exact hUnused
    · intro q c' hq
      rw [hRooms]
      exact hTables.holder q c' (hSeat q c' hq)
    · rw [hC.counter, hRooms]
      exact hTables.unborn
  | created room =>
    obtain ⟨hRooms, hParts⟩ := commit_created hFits
    obtain ⟨-, rest, hw, -⟩ := hFits
    have hMine : .room room ∈ w.tx pid := by simp [hw]
    constructor
    · rw [hRooms]
      refine pairwise_concat hTables.rooms fun a ha => ?_
      obtain ⟨hId, hCode⟩ := hTables.fresh pid room hMine a ha
      exact ⟨hId.symm, hCode.symm⟩
    · intro q a ha b hb
      obtain ⟨hq, ha⟩ := hSub q a ha
      rw [hRooms, List.mem_append, List.mem_singleton] at hb
      obtain hb | rfl := hb
      · exact hTables.fresh q a ha b hb
      · exact hTables.apart q pid a b hq ha hMine
    · intro q q' a b hq ha hb
      exact hTables.apart q q' a b hq (hSub q a ha).2 (hSub q' b hb).2
    · intro x hx
      rw [hParts] at hx
      obtain ⟨r, hr, hId⟩ := hTables.housed x hx
      exact ⟨r, hRooms ▸ List.mem_append_left _ hr, hId⟩
    · exact hUnused
    · intro q c hq
      obtain ⟨r, hr, hCode⟩ := hTables.holder q c (hSeat q c hq)
      exact ⟨r, hRooms ▸ List.mem_append_left _ hr, hCode⟩
    · intro c hc
      rw [hC.counter]
      refine hTables.unborn c fun r hr => hc r ?_
      rw [hRooms]
      exact List.mem_append_left _ hr
  | _ => simp [SeatPhase.allows, SeatPhase.plain] at hAllowed

theorem counter_setCount {c : String} {m : Nat} (hRoom : ∃ r ∈ w.rooms, r.code = c) (c' : String) :
    (w.setCount c m).counter c' = w.counter c' ∨ ∃ r ∈ w.rooms, r.code = c' := by
  by_cases hc : c' = c
  · subst hc
    exact .inr hRoom
  · exact .inl (Function.update_of_ne hc _ _)

theorem Known.exists {c : String} {room : Room} (h : Known w c room) : ∃ r ∈ w.rooms, r.code = c := by
  obtain ⟨r, hr, hCode, -⟩ := h
  exact ⟨r, hr, hCode⟩

theorem Tables.perform (hTables : Tables n w) (hPid : pid < n) (hAllowed : s.allows job o)
    (hFits : s.Fits w pid) (h : perform O w pid n o d = some out) : Tables n out.shared := by
  by_cases hFlush : ∃ wr, o = .flush wr
  · obtain ⟨wr, rfl⟩ := hFlush
    exact hTables.flush hPid h
  by_cases ho : o.seats = false
  · have hSub := perform_tx_subset ho (fun wr hEq => hFlush ⟨wr, hEq⟩) h
    refine hTables.steady (perform_steady ho h) hPid fun a ha => ?_
    exact ⟨hTables.fresh pid a (hSub ha), fun q b hq hb => hTables.apart pid q a b hq.symm (hSub ha) hb⟩
  cases o with
  | commit =>
    cases h
    exact hTables.commit hPid hAllowed hFits
  | countInit c m =>
    cases h
    obtain rfl := SeatPhase.allows_countInit hAllowed
    refine hTables.counted hPid rfl rfl rfl (fun _ _ => rfl) (hTables.holder pid) ?_
    exact counter_setCount hFits.2.2
  | countAdmit c m =>
    cases h
    obtain ⟨room, rfl, rfl⟩ := SeatPhase.allows_countAdmit hAllowed
    have hRoom := hFits.2.2.exists
    unfold capacityAdmit
    split
    · exact hTables
    · refine hTables.counted hPid rfl rfl rfl (fun q hq => Function.update_of_ne hq _ _) ?_ ?_
      · intro c' hc'
        change Function.update w.seat pid (some c) pid = some c' at hc'
        rw [Function.update_self] at hc'
        cases hc'
        exact hRoom
      · exact counter_setCount hRoom
  | countRelease c =>
    cases h
    obtain rfl := SeatPhase.allows_countRelease hAllowed
    have hRoom := hTables.holder pid c hFits.1
    have hNone : ∀ c', Function.update w.seat pid none pid = some c' → ∃ r ∈ w.rooms, r.code = c' := by
      simp
    unfold release
    split
    · exact hTables.counted hPid rfl rfl rfl (fun q hq => Function.update_of_ne hq _ _) hNone
        fun _ => .inl rfl
    · exact hTables.counted hPid rfl rfl rfl (fun q hq => Function.update_of_ne hq _ _) hNone
        (counter_setCount hRoom)
  | _ => exact absurd rfl ho

def World.seatOf (w : World) (pid : Nat) (code : String) : Nat :=
  if w.seat pid = some code then 1 else 0

theorem count_setCount (w : World) (c c' : String) (m : Nat) :
    (w.setCount c m).count c' = if c' = c then m else w.count c' := by
  unfold World.count World.setCount
  by_cases hc : c' = c <;> simp [hc]

section

variable {held held' : String → Nat}

theorem World.Covered.steady (hSteady : Steady pid w v)
    (hHeld : ∀ c, held' c + w.seatOf pid c ≤ held c + v.seatOf pid c) (hCovered : w.Covered held) :
    v.Covered held' := by
  intro r hr
  rw [hSteady.rooms] at hr
  have hOne := hHeld r.code
  simp only [World.seatOf, hSteady.seat] at hOne
  have hr' := hCovered r hr
  simp only [World.active, World.count, hSteady.participants, hSteady.counter] at hr' ⊢
  omega

theorem count_commit (w : World) (pid : Nat) (c : String) : (w.commit pid).count c = w.count c := by
  unfold World.count
  rw [(committed w pid).counter]

theorem seatOf_commit (w : World) (pid : Nat) (c : String) : (w.commit pid).seatOf pid c = 0 := by
  unfold World.seatOf
  rw [(committed w pid).seat]
  simp

theorem World.Covered.commit_joining {c : String} {room : Room} (hTables : Tables n w)
    (hFits : (SeatPhase.joining c room).Fits w pid)
    (hHeld : ∀ c, held' c + w.seatOf pid c ≤ held c + (w.commit pid).seatOf pid c)
    (hCovered : w.Covered held) : (w.commit pid).Covered held' := by
  obtain ⟨p, hRoom, hRooms, hParts, -⟩ := Rooms.commit_joining hFits
  obtain ⟨hs, ⟨r₀, hr₀, hCode, hId, -⟩, -⟩ := hFits
  intro r hr
  have hOne := hHeld r.code
  rw [seatOf_commit] at hOne
  rw [hRooms] at hr
  have hr' := hCovered r hr
  rw [count_commit]
  unfold World.active at hr' ⊢
  rw [hParts, List.filter_append, List.length_append]
  by_cases hMine : r.id = p.roomId
  · have hEq := hTables.room_eq hr hr₀ (.inl (by rw [hMine, hRoom, hId]))
    have hMem : w.seatOf pid r.code = 1 := by
      rw [hEq, hCode]
      exact if_pos hs
    have hLen : ([p].filter (World.isActive r.id)).length ≤ 1 := List.length_filter_le _ _
    omega
  · have hNot : [p].filter (World.isActive r.id) = [] := by
      simp [World.isActive, Ne.symm hMine]
    rw [hNot, List.length_nil]
    omega

theorem World.Covered.commit_created {room : Room} (hTables : Tables n w)
    (hFits : (SeatPhase.created room).Fits w pid)
    (hHeld : ∀ c, held' c + w.seatOf pid c ≤ held c + (w.commit pid).seatOf pid c)
    (hNone : ∀ c, (∀ r ∈ w.rooms, r.code ≠ c) → held c = 0) (hCovered : w.Covered held) :
    (w.commit pid).Covered held' := by
  obtain ⟨hRooms, hParts⟩ := Rooms.commit_created hFits
  obtain ⟨-, rest, hw, -⟩ := hFits
  have hMine : .room room ∈ w.tx pid := by simp [hw]
  intro r hr
  have hOne := hHeld r.code
  rw [seatOf_commit] at hOne
  rw [count_commit]
  unfold World.active
  rw [hParts]
  rw [hRooms, List.mem_append, List.mem_singleton] at hr
  obtain hr | rfl := hr
  · have hr' := hCovered r hr
    unfold World.active at hr'
    omega
  · have hFresh := hTables.fresh pid r hMine
    have hNew := hNone r.code fun b hb => (hFresh b hb).2.symm
    have hZero : w.count r.code = 0 := by
      unfold World.count
      rw [hTables.unborn r.code fun b hb => (hFresh b hb).2.symm]
      rfl
    rw [hTables.unhoused fun b hb => (hFresh b hb).1, List.length_nil]
    omega

theorem World.Covered.countInit {c : String} {m : Nat}
    (hHeld : ∀ c', held' c' + w.seatOf pid c' ≤ held c' + (w.setCount c m).seatOf pid c')
    (hSeed : ∀ r ∈ w.rooms, r.code = c →
      (w.active r.id).length ≤ m ∧ m ≤ r.maxPlayers ∧ held c = 0)
    (hCovered : w.Covered held) : (w.setCount c m).Covered held' := by
  intro r hr
  have hOne := hHeld r.code
  have hr' := hCovered r hr
  change held' r.code + w.seatOf pid r.code ≤ held r.code + w.seatOf pid r.code at hOne
  change (w.active r.id).length + held' r.code ≤ (w.setCount c m).count r.code ∧
    (w.setCount c m).count r.code ≤ r.maxPlayers
  rw [count_setCount]
  split
  next hCode =>
    obtain ⟨hAct, hMax, hZero⟩ := hSeed r hr hCode
    rw [← hCode] at hZero
    omega
  · omega

theorem World.Covered.countAdmit {c : String} {room : Room} (hTables : Tables n w)
    (hFits : (SeatPhase.found c room).Fits w pid)
    (hHeld : ∀ c', held' c' + w.seatOf pid c' ≤
      held c' + (capacityAdmit w pid c room.maxPlayers).shared.seatOf pid c')
    (hCovered : w.Covered held) : (capacityAdmit w pid c room.maxPlayers).shared.Covered held' := by
  obtain ⟨hs, -, r₀, hr₀, hCode, -, hMax⟩ := hFits
  have hZero : ∀ c', w.seatOf pid c' = 0 := fun c' => by simp [World.seatOf, hs]
  obtain hEq | ⟨hLt, hEq⟩ := admit_cases w pid c room.maxPlayers
  · rw [hEq] at hHeld ⊢
    intro r hr
    have hOne := hHeld r.code
    have hr' := hCovered r hr
    omega
  · rw [hEq] at hHeld ⊢
    intro r hr
    have hOne := hHeld r.code
    rw [hZero] at hOne
    have hr' := hCovered r hr
    change (w.active r.id).length + held' r.code ≤ (w.setCount c (w.count c + 1)).count r.code ∧
      (w.setCount c (w.count c + 1)).count r.code ≤ r.maxPlayers
    rw [count_setCount]
    by_cases hc : r.code = c
    · have hSame := hTables.room_eq hr hr₀ (.inr (hc.trans hCode.symm))
      have hTaken : World.seatOf { w.setCount c (w.count c + 1) with
          seat := Function.update w.seat pid (some c) } pid r.code = 1 := by
        simp [World.seatOf, hc]
      rw [if_pos hc]
      rw [hTaken] at hOne
      rw [hc] at hr' hOne ⊢
      rw [← hMax, ← hSame] at hLt
      omega
    · have hOther : World.seatOf { w.setCount c (w.count c + 1) with
          seat := Function.update w.seat pid (some c) } pid r.code = 0 := by
        simp [World.seatOf, Ne.symm hc]
      rw [if_neg hc]
      rw [hOther] at hOne
      omega

/-- The seat that is given back was counted, so the counter is above zero. -/
theorem World.Covered.countRelease {c : String} (hTables : Tables n w)
    (hFits : (SeatPhase.refused c).Fits w pid)
    (hHeld : ∀ c', held' c' + w.seatOf pid c' ≤ held c' + (release w pid c).shared.seatOf pid c')
    (hCovered : w.Covered held) : (release w pid c).shared.Covered held' := by
  have hGone : ∀ c', (release w pid c).shared.seatOf pid c' = 0 := fun c' => by
    unfold release
    split <;> simp [World.seatOf]
  have hMine : w.seatOf pid c = 1 := if_pos hFits.1
  obtain ⟨r₀, hr₀, hCode⟩ := hTables.holder pid c hFits.1
  have hPos : 0 < w.count c := by
    have hOne := hHeld c
    rw [hGone, hMine] at hOne
    have hr₀' := hCovered r₀ hr₀
    rw [hCode] at hr₀'
    omega
  rw [release_eq hPos]
  intro r hr
  have hOne := hHeld r.code
  rw [hGone] at hOne
  have hr' := hCovered r hr
  change (w.active r.id).length + held' r.code ≤ (w.setCount c (w.count c - 1)).count r.code ∧
    (w.setCount c (w.count c - 1)).count r.code ≤ r.maxPlayers
  rw [count_setCount]
  split
  next hc =>
    rw [hc] at hr' hOne ⊢
    omega
  · omega

/-- The seats that the program takes and gives back are covered by the counters. `hSeed` is
what is known when a counter is set. -/
theorem World.Covered.perform (hTables : Tables n w)
    (hAllowed : s.allows job o) (hFits : s.Fits w pid) (h : perform O w pid n o d = some out)
    (hHeld : ∀ c, held' c + w.seatOf pid c ≤ held c + out.shared.seatOf pid c)
    (hNone : ∀ c, (∀ r ∈ w.rooms, r.code ≠ c) → held c = 0)
    (hSeed : ∀ c m, o = .countInit c m → ∀ r ∈ w.rooms, r.code = c →
      (w.active r.id).length ≤ m ∧ m ≤ r.maxPlayers ∧ held c = 0)
    (hCovered : w.Covered held) : out.shared.Covered held' := by
  by_cases ho : o.seats = false
  · exact hCovered.steady (perform_steady ho h) hHeld
  cases o with
  | commit =>
    cases h
    obtain ⟨c, room, rfl⟩ | ⟨room, rfl⟩ := SeatPhase.allows_commit hAllowed
    · exact hCovered.commit_joining hTables hFits hHeld
    · exact hCovered.commit_created hTables hFits hHeld hNone
  | countInit c m =>
    cases h
    exact hCovered.countInit hHeld (hSeed c m rfl)
  | countAdmit c m =>
    cases h
    obtain ⟨room, rfl, rfl⟩ := SeatPhase.allows_countAdmit hAllowed
    exact hCovered.countAdmit hTables hFits hHeld
  | countRelease c =>
    cases h
    obtain rfl := SeatPhase.allows_countRelease hAllowed
    exact hCovered.countRelease hTables hFits hHeld
  | _ => exact absurd rfl ho

end

end

section

variable {O : Outside} {S S' : SysState} {pid : Nat} {v : World} {job : Job} {prog : Coro Ret}

theorem mem_holders {c : String} :
    pid ∈ holders S c ↔ S.shared.seat pid = some c ∧ running S pid = true := by
  unfold holders
  rw [Finset.mem_filter, Finset.mem_range, and_iff_right_iff_imp]
  rintro ⟨-, hRunning⟩
  unfold running at hRunning
  split at hRunning
  next hProc => exact (List.getElem?_eq_some_iff.mp hProc).1
  · cases hRunning

theorem running_set {q : Nat} (hq : q ≠ pid) :
    running ⟨v, S.procs.set pid ⟨job, prog⟩⟩ q = running S q := by
  unfold running
  rw [List.getElem?_set_ne (Ne.symm hq)]

theorem holders_set (hSeat : ∀ q, q ≠ pid → v.seat q = S.shared.seat q) {q : Nat} {c : String}
    (h : q ∈ holders ⟨v, S.procs.set pid ⟨job, prog⟩⟩ c) :
    (q ≠ pid ∧ q ∈ holders S c) ∨ (q = pid ∧ v.seat pid = some c) := by
  obtain ⟨hq, hRunning⟩ := mem_holders.mp h
  by_cases hEq : q = pid
  · subst hEq
    exact .inr ⟨rfl, hq⟩
  · rw [running_set hEq] at hRunning
    exact .inl ⟨hEq, mem_holders.mpr ⟨(hSeat q hEq).symm.trans hq, hRunning⟩⟩

theorem held_le (hRun : running S pid = true) (hSeat : ∀ q, q ≠ pid → v.seat q = S.shared.seat q)
    (c : String) : (holders ⟨v, S.procs.set pid ⟨job, prog⟩⟩ c).card + S.shared.seatOf pid c ≤
      (holders S c).card + v.seatOf pid c := by
  have hSub : holders ⟨v, S.procs.set pid ⟨job, prog⟩⟩ c ⊆
      (holders S c).erase pid ∪ if v.seat pid = some c then {pid} else ∅ := by
    intro q hq
    obtain ⟨hNe, hMem⟩ | ⟨rfl, hMine⟩ := holders_set hSeat hq
    · exact Finset.mem_union_left _ (Finset.mem_erase.mpr ⟨hNe, hMem⟩)
    · simp [hMine]
  have hLe := (Finset.card_le_card hSub).trans (Finset.card_union_le _ _)
  have hErase : ((holders S c).erase pid).card + S.shared.seatOf pid c = (holders S c).card := by
    unfold World.seatOf
    split
    next hMine =>
      exact Finset.card_erase_add_one (mem_holders.mpr ⟨hMine, hRun⟩)
    next hNot =>
      rw [Finset.erase_eq_of_notMem fun hMem => hNot (mem_holders.mp hMem).1, Nat.add_zero]
  have hNew : (if v.seat pid = some c then ({pid} : Finset Nat) else ∅).card = v.seatOf pid c := by
    unfold World.seatOf
    split <;> simp
  omega

theorem exec_effect {w : World} {n : Nat} {o : Op} {d : Decision} {out : Answer o}
    (h : exec O w job pid n o d = some out) : (d.fault = .fail ∧ out.shared = w) ∨
      ∃ a, d.fault ≠ .fail ∧ perform O w pid n o d = some a ∧ out.shared = a.shared := by
  obtain ⟨hNone, hOk⟩ | ⟨-, -, hFail | ⟨a, hLost, ha, hEq⟩⟩ := exec_cases h
  · exact .inr ⟨out, by simp [hNone], hOk, rfl⟩
  · exact .inl hFail
  · exact .inr ⟨a, by simp [hLost], ha, hEq⟩

variable {o : Op} {k : Except Exn o.Res → Coro Ret} {d : Decision} {out : Answer o} {t : Job}

theorem exec_spawned {w : World} {n : Nat} (h : exec O w job pid n o d = some out) :
    out.spawned = none := by
  obtain ⟨-, hOk⟩ | ⟨-, hNone, -⟩ := exec_cases h
  · exact perform_spawned hOk
  · exact hNone

theorem exec_leaves {w : World} {n : Nat} (h : exec O w job pid n o d = some out) :
    Leaves pid w out.shared := by
  obtain ⟨-, hEq⟩ | ⟨a, -, ha, hEq⟩ := exec_effect h
  · rw [hEq]
    exact ⟨fun _ _ => rfl, fun _ _ => rfl, .of_eq rfl⟩
  · rw [hEq]
    exact perform_leaves ha

theorem fits_exec {w : World} {n : Nat} {s : SeatPhase} (hAllowed : s.allows job o)
    (hFits : s.Fits w pid) (h : exec O w job pid n o d = some out) :
    (s.next o out.result).Fits out.shared pid := by
  obtain ⟨-, hOk⟩ | ⟨hErr, -⟩ := exec_cases h
  · exact fits_perform hAllowed hFits hOk
  · rw [hErr, next_fault]
    trivial

theorem housed_op (h : Housed S) (hProc : S.procs[pid]? = some ⟨t, .call o k⟩)
    (hExec : exec O S.shared t pid S.procs.length o d = some out) :
    Housed ⟨out.shared, S.procs.set pid ⟨t, k out.result⟩⟩ := by
  have hPid := (List.getElem?_eq_some_iff.mp hProc).1
  obtain ⟨s, hSeats, hFits⟩ := h.fits pid _ hProc
  have hLeaves := exec_leaves hExec
  constructor
  · rw [List.length_set]
    obtain ⟨-, hEq⟩ | ⟨a, -, ha, hEq⟩ := exec_effect hExec
    · rw [hEq]
      exact h.tables
    · rw [hEq]
      exact h.tables.perform hPid hSeats.1 hFits ha
  · intro q pr hq
    by_cases hEq : q = pid
    · subst hEq
      rw [List.getElem?_set_self hPid] at hq
      cases hq
      exact ⟨_, hSeats.2 out.result, fits_exec hSeats.1 hFits hExec⟩
    · rw [List.getElem?_set_ne (Ne.symm hEq)] at hq
      obtain ⟨s', hSeats', hFits'⟩ := h.fits q pr hq
      exact ⟨s', hSeats', hFits'.congr (hLeaves.seat q hEq) (hLeaves.tx q hEq) hLeaves.kept⟩

theorem Seating.housed (h : Seating S) : Housed S := ⟨h.tables, h.fits⟩

theorem Seating.no_holder (h : Seating S) (c : String) (hNone : ∀ r ∈ S.shared.rooms, r.code ≠ c) :
    holders S c = ∅ := by
  refine Finset.eq_empty_of_forall_notMem fun pid hMem => ?_
  obtain ⟨r, hr, hCode⟩ := h.tables.holder pid c (mem_holders.mp hMem).1
  exact hNone r hr hCode

theorem seating_covered (h : Seating S) (hProc : S.procs[pid]? = some ⟨t, .call o k⟩)
    (hExec : exec O S.shared t pid S.procs.length o d = some out) :
    out.shared.Covered fun c =>
      (holders ⟨out.shared, S.procs.set pid ⟨t, k out.result⟩⟩ c).card := by
  obtain ⟨s, hSeats, hFits⟩ := h.fits pid _ hProc
  have hRun : running S pid = true := by simp [running, hProc]
  have hHeld : ∀ c, (holders ⟨out.shared, S.procs.set pid ⟨t, k out.result⟩⟩ c).card +
      S.shared.seatOf pid c ≤ (holders S c).card + out.shared.seatOf pid c :=
    held_le hRun (exec_leaves hExec).seat
  obtain ⟨-, hEq⟩ | ⟨a, -, ha, hEq⟩ := exec_effect hExec
  · intro r hr
    rw [hEq] at hr
    have hOne := hHeld r.code
    have hr' := h.covered r hr
    rw [hEq] at hOne ⊢
    dsimp only at hr' ⊢
    omega
  · rw [hEq] at hHeld ⊢
    refine World.Covered.perform h.tables hSeats.1 hFits ha hHeld ?_ ?_ h.covered
    · intro c hNone
      rw [h.no_holder c hNone, Finset.card_empty]
    · rintro c m rfl r hr hCode
      obtain ⟨hAct, hMax, hEmpty⟩ := h.seeding pid t c m k hProc r hr hCode
      exact ⟨hAct, hMax, by rw [hEmpty, Finset.card_empty]⟩

theorem Seating.active_le_max (h : Seating S) {r : Room} (hr : r ∈ S.shared.rooms) :
    (S.shared.active r.id).length ≤ r.maxPlayers := by
  have hr' := h.covered r hr
  omega

theorem seating_others (h : Seating S) (hProc : S.procs[pid]? = some ⟨t, .call o k⟩)
    (hCond : countsSettled S (.op pid d) = true)
    (hExec : exec O S.shared t pid S.procs.length o d = some out) {q : Nat} {u : Job} {c : String}
    {m : Nat} {k' : Except Exn Unit → Coro Ret}
    (hSeed : S.procs[q]? = some ⟨u, .call (.countInit c m) k'⟩) {r : Room}
    (hr : r ∈ out.shared.rooms) (hCode : r.code = c) :
    (out.shared.active r.id).length ≤ m ∧ m ≤ r.maxPlayers ∧
      holders ⟨out.shared, S.procs.set pid ⟨t, k out.result⟩⟩ c = ∅ := by
  obtain ⟨s, hSeats, hFits⟩ := h.fits pid _ hProc
  obtain ⟨s', hSeats', hFits'⟩ := h.fits q _ hSeed
  have hPhase := SeatPhase.allows_countInit hSeats'.1
  subst hPhase
  obtain ⟨-, -, r₀, hr₀, hCode₀⟩ := hFits'
  obtain ⟨hAct, hMax, hEmpty⟩ := h.seeding q u c m k' hSeed r₀ hr₀ hCode₀
  have hNot : S.shared.seat pid ≠ some c := by
    intro hSeat
    have hMem : pid ∈ holders S c := mem_holders.mpr ⟨hSeat, by simp [running, hProc]⟩
    rw [hEmpty] at hMem
    exact absurd hMem (Finset.notMem_empty pid)
  have hStill : out.shared.seat pid ≠ some c → holders ⟨out.shared,
      S.procs.set pid ⟨t, k out.result⟩⟩ c = ∅ := by
    intro hSeat
    refine Finset.eq_empty_of_forall_notMem fun x hx => ?_
    obtain ⟨-, hMem⟩ | ⟨-, hMine⟩ := holders_set (exec_leaves hExec).seat hx
    · rw [hEmpty] at hMem
      exact absurd hMem (Finset.notMem_empty x)
    · exact hSeat hMine
  have hSame : out.shared.rooms = S.shared.rooms → r = r₀ := by
    intro hRooms
    rw [hRooms] at hr
    exact h.tables.room_eq hr hr₀ (.inr (hCode.trans hCode₀.symm))
  obtain ⟨-, hEq⟩ | ⟨a, hFault, ha, hEq⟩ := exec_effect hExec
  · rw [hSame (by rw [hEq])]
    exact ⟨by rw [hEq]; exact hAct, hMax, hStill (by rw [hEq]; exact hNot)⟩
  by_cases ho : o.seats = false
  · have hSteady := perform_steady ho ha
    rw [hSame (by rw [hEq, hSteady.rooms])]
    refine ⟨?_, hMax, hStill (by rw [hEq, hSteady.seat]; exact hNot)⟩
    rw [hEq, World.active, hSteady.participants]
    exact hAct
  rw [hEq] at hr hStill hSame ⊢
  cases o with
  | commit =>
    cases ha
    refine and_assoc.mp ⟨?_, hStill (by rw [(committed S.shared pid).seat]; simp)⟩
    obtain ⟨c', room, rfl⟩ | ⟨room, rfl⟩ := SeatPhase.allows_commit hSeats.1
    · obtain ⟨p, hRoom, hRooms, hParts, -⟩ := commit_joining hFits
      obtain ⟨hs, ⟨r₁, hr₁, hCode₁, hId₁, -⟩, -⟩ := hFits
      rw [hSame hRooms]
      refine ⟨?_, hMax⟩
      have hOut : World.isActive r₀.id p = false := by
        refine decide_eq_false fun hIn => hNot ?_
        have hRow := h.tables.room_eq hr₁ hr₀ (.inl (by rw [hId₁, ← hRoom, hIn.1]))
        rw [hs, ← hCode₁, hRow, hCode₀]
      rw [World.active, hParts, List.filter_append, List.filter_cons_of_neg (by simp [hOut]),
        List.filter_nil, List.append_nil]
      exact hAct
    · obtain ⟨hRooms, hParts⟩ := commit_created hFits
      obtain ⟨-, rest, hw, -⟩ := hFits
      rw [World.active, hParts]
      rw [hRooms, List.mem_append, List.mem_singleton] at hr
      obtain hr | rfl := hr
      · rw [h.tables.room_eq hr hr₀ (.inr (hCode.trans hCode₀.symm))]
        exact ⟨hAct, hMax⟩
      · exact absurd (hCode.trans hCode₀.symm) (h.tables.fresh pid r (by simp [hw]) r₀ hr₀).2
  | countInit c' m' =>
    cases ha
    rw [hSame rfl]
    exact ⟨hAct, hMax, hStill hNot⟩
  | countAdmit c' m' =>
    cases ha
    have hOther : c ≠ c' := by
      rintro rfl
      have hAll : ∀ x < S.procs.length, seeds S c x = false := by
        simpa [countsSettled, hProc, hFault] using hCond
      have hBusy := hAll q (List.getElem?_eq_some_iff.mp hSeed).1
      simp [seeds, hSeed] at hBusy
    obtain hEq' | ⟨-, hEq'⟩ := admit_cases S.shared pid c' m'
    · rw [hEq'] at hSame hStill ⊢
      rw [hSame rfl]
      exact ⟨hAct, hMax, hStill hNot⟩
    · rw [hEq'] at hSame hStill ⊢
      rw [hSame rfl]
      exact ⟨hAct, hMax, hStill (by simp [Ne.symm hOther])⟩
  | countRelease c' =>
    cases ha
    obtain ⟨hRooms, hParts, hSeat⟩ := release_rows S.shared pid c'
    rw [hSame hRooms, World.active, hParts]
    exact ⟨hAct, hMax, hStill (by rw [hSeat]; simp)⟩
  | _ => exact absurd rfl ho

theorem seating_own (h : Seating S) (hProc : S.procs[pid]? = some ⟨t, .call o k⟩)
    (hCond : countsSettled S (.op pid d) = true)
    (hExec : exec O S.shared t pid S.procs.length o d = some out) {c : String} {m : Nat}
    {k' : Except Exn Unit → Coro Ret} (hNext : k out.result = .call (.countInit c m) k') {r : Room}
    (hr : r ∈ out.shared.rooms) (hCode : r.code = c) :
    (out.shared.active r.id).length ≤ m ∧ m ≤ r.maxPlayers ∧
      holders ⟨out.shared, S.procs.set pid ⟨t, k out.result⟩⟩ c = ∅ := by
  obtain ⟨s, hSeats, hFits⟩ := h.fits pid _ hProc
  have hOn := hSeats.2 out.result
  rw [hNext] at hOn
  have hPhase : s.next o out.result = .seeding c m := SeatPhase.allows_countInit hOn.1
  have hSeat : out.shared.seat pid = none := by
    have hFits' := fits_exec hSeats.1 hFits hExec
    rw [hPhase] at hFits'
    exact hFits'.1
  have hStill : holders S c = ∅ →
      holders ⟨out.shared, S.procs.set pid ⟨t, k out.result⟩⟩ c = ∅ := by
    intro hEmpty
    refine Finset.eq_empty_of_forall_notMem fun x hx => ?_
    obtain ⟨-, hMem⟩ | ⟨-, hMine⟩ := holders_set (exec_leaves hExec).seat hx
    · rw [hEmpty] at hMem
      exact absurd hMem (Finset.notMem_empty x)
    · rw [hSeat] at hMine
      cases hMine
  obtain ⟨hFault, hOk⟩ | ⟨hErr, -⟩ := exec_cases hExec
  swap
  · rw [hErr, next_fault] at hPhase
    cases hPhase
  obtain ⟨room, rfl, rfl, rfl⟩ | ⟨room, rfl, rfl, rfl, rfl⟩ := SeatPhase.next_seeding hSeats.1 hPhase
  · cases hOk
    cases hPhase
    obtain ⟨-, -, r₀, hr₀, hCode₀, hId₀, -⟩ := hFits
    have hRow := h.tables.room_eq hr hr₀ (.inr (hCode.trans hCode₀.symm))
    have hEmpty : holders S c = ∅ := by
      simpa [countsSettled, hProc, hFault] using hCond
    have hLen : (sortBy Participant.joinedAt (S.shared.active room.id)).length =
        (S.shared.active r.id).length := by
      rw [hRow, hId₀]
      exact List.length_insertionSort _ _
    rw [hLen]
    exact ⟨le_rfl, h.active_le_max hr, hStill hEmpty⟩
  · cases hOk
    obtain ⟨hRooms, hParts⟩ := commit_created hFits
    obtain ⟨-, rest, hw, -⟩ := hFits
    have hFresh := h.tables.fresh pid room (by simp [hw])
    have hEmpty := h.no_holder room.code fun b hb => (hFresh b hb).2.symm
    have hNobody := h.tables.unhoused fun b hb => (hFresh b hb).1
    rw [hRooms, List.mem_append, List.mem_singleton] at hr
    obtain hr | rfl := hr
    · exact absurd hCode.symm (hFresh r hr).2
    · rw [World.active, hParts, hNobody]
      exact ⟨le_rfl, Nat.zero_le _, hStill hEmpty⟩

theorem seating_op (h : Seating S) (hProc : S.procs[pid]? = some ⟨t, .call o k⟩)
    (hCond : countsSettled S (.op pid d) = true)
    (hExec : exec O S.shared t pid S.procs.length o d = some out) :
    Seating ⟨out.shared, S.procs.set pid ⟨t, k out.result⟩⟩ := by
  have hPid := (List.getElem?_eq_some_iff.mp hProc).1
  obtain ⟨hTables, hFits⟩ := housed_op h.housed hProc hExec
  refine ⟨hTables, hFits, ?_, seating_covered h hProc hExec⟩
  intro q u c m k' hq r hr hCode
  by_cases hEq : q = pid
  · subst hEq
    rw [List.getElem?_set_self hPid] at hq
    have hNext : k out.result = .call (.countInit c m) k' := by
      injection hq with hq
      injection hq
    exact seating_own h hProc hCond hExec hNext hr hCode
  · rw [List.getElem?_set_ne (Ne.symm hEq)] at hq
    exact seating_others h hProc hCond hExec hq hr hCode

/-- What the environment does to the rooms and their participants. -/
structure Aside (w v : World) : Prop where
  kept : Kept w v
  back : ∀ r' ∈ v.rooms, ∃ r ∈ w.rooms, r'.id = r.id ∧ r'.code = r.code ∧ r'.maxPlayers = r.maxPlayers
  rooms : w.rooms.Pairwise Room.Apart → v.rooms.Pairwise Room.Apart
  housed : ∀ p' ∈ v.participants, ∃ p ∈ w.participants, p'.roomId = p.roomId
  active : ∀ i, (v.active i).length ≤ (w.active i).length
  counter : v.counter = w.counter
  seat : v.seat = w.seat
  tx : v.tx = w.tx

theorem Aside.of_rooms {w v : World} (hRooms : v.rooms = w.rooms)
    (hParts : v.participants = w.participants) (hCounter : v.counter = w.counter)
    (hSeat : v.seat = w.seat) (hTx : v.tx = w.tx) : Aside w v where
  kept := .of_eq hRooms
  back r hr := ⟨r, hRooms ▸ hr, rfl, rfl, rfl⟩
  rooms h := by rw [hRooms]; exact h
  housed p hp := ⟨p, hParts ▸ hp, rfl⟩
  active i := by rw [World.active, World.active, hParts]
  counter := hCounter
  seat := hSeat
  tx := hTx

theorem env_aside {w : World} {n : Nat} {e : EnvAction} {out : World × Option Job}
    (h : env w n e = some out) : Aside w out.1 := by
  cases e with
  | setStatus i st =>
    cases h
    constructor
    · intro r hr
      by_cases hId : r.id = i
      · exact ⟨_, mem_updateWhere_of_eq hr hId, rfl, rfl, rfl⟩
      · exact ⟨r, mem_updateWhere_of_ne hr hId, rfl, rfl, rfl⟩
    · intro r' hr'
      obtain ⟨hr, -⟩ | ⟨r, hr, -, rfl⟩ := mem_updateWhere.mp hr'
      · exact ⟨r', hr, rfl, rfl, rfl⟩
      · exact ⟨r, hr, rfl, rfl, rfl⟩
    · exact pairwise_updateWhere (fun a b hab => hab) (fun a b hab => hab)
    · exact fun p hp => ⟨p, hp, rfl⟩
    · exact fun _ => le_rfl
    · rfl
    · rfl
    · rfl
  | kick i =>
    cases h
    constructor
    · exact .of_eq rfl
    · exact fun r hr => ⟨r, hr, rfl, rfl, rfl⟩
    · exact fun h => h
    · intro p' hp'
      obtain ⟨hp, -⟩ | ⟨p, hp, -, rfl⟩ := mem_updateWhere.mp hp'
      · exact ⟨p', hp, rfl⟩
      · exact ⟨p, hp, rfl⟩
    · intro j
      unfold World.active updateWhere
      rw [← List.countP_eq_length_filter, ← List.countP_eq_length_filter, List.countP_map]
      refine List.countP_mono_left fun p _ hp => ?_
      simp only [Function.comp] at hp
      split at hp
      · simp [World.isActive] at hp
      · exact hp
    · rfl
    · rfl
    · rfl
  | _ =>
    cases h
    exact .of_rooms rfl rfl rfl rfl rfl

theorem housed_env {e : EnvAction} {out : World × Option Job} (h : Housed S)
    (hEnv : env S.shared S.procs.length e = some out) :
    Housed ⟨out.1, S.procs ++ out.2.toList.map (rooms O).start⟩ := by
  have hAside := env_aside hEnv
  constructor
  · constructor
    · exact hAside.rooms h.tables.rooms
    · intro q a ha b hb
      rw [hAside.tx] at ha
      obtain ⟨b₀, hb₀, hId, hCode, -⟩ := hAside.back b hb
      obtain ⟨hNeId, hNeCode⟩ := h.tables.fresh q a ha b₀ hb₀
      exact ⟨hId ▸ hNeId, hCode ▸ hNeCode⟩
    · rw [hAside.tx]
      exact h.tables.apart
    · intro p' hp'
      obtain ⟨p, hp, hRoom⟩ := hAside.housed p' hp'
      obtain ⟨r, hr, hId⟩ := h.tables.housed p hp
      obtain ⟨r', hr', hId', -⟩ := hAside.kept r hr
      exact ⟨r', hr', by rw [hId', hId, hRoom]⟩
    · intro q hq
      rw [hAside.seat, hAside.tx]
      refine h.tables.unused q (le_trans ?_ hq)
      simp
    · intro q c hq
      rw [hAside.seat] at hq
      obtain ⟨r, hr, hCode⟩ := h.tables.holder q c hq
      obtain ⟨r', hr', -, hCode', -⟩ := hAside.kept r hr
      exact ⟨r', hr', hCode'.trans hCode⟩
    · intro c hc
      rw [hAside.counter]
      refine h.tables.unborn c fun r hr hCode => ?_
      obtain ⟨r', hr', -, hCode', -⟩ := hAside.kept r hr
      exact hc r' hr' (hCode'.trans hCode)
  · intro q pr hq
    obtain hOld | ⟨rfl, j, -, rfl⟩ := getElem?_append_spawned hq
    · obtain ⟨s, hSeats, hFits⟩ := h.fits q pr hOld
      exact ⟨s, hSeats, hFits.congr (by rw [hAside.seat]) (by rw [hAside.tx]) hAside.kept⟩
    · refine ⟨.idle, jobBody_seats O j, ?_⟩
      have hUnused := h.tables.unused S.procs.length le_rfl
      exact ⟨by rw [hAside.seat]; exact hUnused.1, by rw [hAside.tx]; exact hUnused.2⟩

theorem Housed.seat_lt (h : Housed S) {q : Nat} {c : String} (hSeat : S.shared.seat q = some c) :
    q < S.procs.length := by
  by_contra hGe
  rw [(h.tables.unused q (by omega)).1] at hSeat
  cases hSeat

theorem holders_env {e : EnvAction} {out : World × Option Job} (h : Housed S)
    (hEnv : env S.shared S.procs.length e = some out) (c : String) :
    holders ⟨out.1, S.procs ++ out.2.toList.map (rooms O).start⟩ c = holders S c := by
  have hSeat := (env_aside hEnv).seat
  ext q
  rw [mem_holders, mem_holders, hSeat]
  refine and_congr_right fun hq => ?_
  unfold running
  rw [List.getElem?_append_left (h.seat_lt hq)]

theorem seating_env {e : EnvAction} {out : World × Option Job} (h : Seating S)
    (hEnv : env S.shared S.procs.length e = some out) :
    Seating ⟨out.1, S.procs ++ out.2.toList.map (rooms O).start⟩ := by
  have hAside := env_aside hEnv
  have hHolders := holders_env (O := O) h.housed hEnv
  obtain ⟨hTables, hFits⟩ := housed_env (O := O) h.housed hEnv
  refine ⟨hTables, hFits, ?_, ?_⟩
  · intro q t c m k hq r' hr' hCode'
    obtain hOld | ⟨rfl, j, -, hj⟩ := getElem?_append_spawned hq
    · obtain ⟨r, hr, hId, hCode, hMax⟩ := hAside.back r' hr'
      obtain ⟨hAct, hLe, hEmpty⟩ := h.seeding q t c m k hOld r hr (hCode.symm.trans hCode')
      refine ⟨?_, hMax ▸ hLe, (hHolders c).trans hEmpty⟩
      rw [hId]
      exact (hAside.active r.id).trans hAct
    · have hBody := jobBody_seats O j
      have hProg : jobBody O j = .call (.countInit c m) k := by
        injection hj with _ hj
        exact hj.symm
      rw [hProg] at hBody
      have hAllowed : SeatPhase.allows j .idle (.countInit c m) := hBody.1
      cases SeatPhase.allows_countInit hAllowed
  · intro r' hr'
    obtain ⟨r, hr, hId, hCode, hMax⟩ := hAside.back r' hr'
    have hOld := h.covered r hr
    have hAct := hAside.active r.id
    dsimp only at hOld ⊢
    rw [hId, hCode, hMax, hHolders]
    unfold World.count at hOld ⊢
    rw [hAside.counter]
    omega

theorem seating_reach {quizzes : List Quiz}
    (h : (rooms O).Reach (fun S l => countsSettled S l = true) (initial quizzes) S) : Seating S := by
  induction h with
  | refl =>
    constructor
    · constructor <;> simp [initial]
    · intro q pr hq
      cases hq
    · intro q t c m k hq
      cases hq
    · intro r hr
      cases hr
  | tail _ hCond hStep ih =>
    obtain ⟨pid, d, t, o, k, out, rfl, hProc, hExec, rfl⟩ | ⟨e, out, rfl, hEnv, rfl⟩ :=
      Machine.step_cases hStep
    · have hExec' : exec O _ t pid _ o d = some out := hExec
      have hSpawned : out.spawned = none := exec_spawned hExec'
      rw [hSpawned, Option.toList_none, List.map_nil, List.append_nil]
      exact seating_op ih hProc hCond hExec
    · exact seating_env ih hEnv

/-- While no seat is taken or held in between the count for a counter and its setting:
the committed active participants of a room never exceed its capacity. -/
theorem capacity_respected {quizzes : List Quiz}
    (h : (rooms O).Reach (fun S l => countsSettled S l = true) (initial quizzes) S) :
    ∀ r ∈ S.shared.rooms, (S.shared.active r.id).length ≤ r.maxPlayers :=
  fun _ hr => (seating_reach h).active_le_max hr

end

namespace Demo

def outside : Outside := ⟨fun _ => [], fun _ _ id _ => toString id, id, "duplicate key"⟩

/-- `k` calls of one program, with ids counted up from `value`. -/
def calls (pid k value : Nat) : List SysLabel :=
  (List.range k).map fun i => .op pid { value := value + i, text := "R2D2C3" }

def join (nickname : String) : SysLabel :=
  .env (.request (.joinRoom "R2D2C3" nickname "10.0.0.1" none))

def opened : List SysLabel :=
  [.env (.request (.createRoom ⟨7, "host"⟩ ⟨5, 2, []⟩))] ++ calls 0 12 100

/-- Ann joins, and a snapshot is rebuilt before Bob and Cy ask for a seat. -/
def inTurn : List SysLabel :=
  opened ++ [join "ann"] ++ calls 1 11 200 ++
    [.env (.putSnapshot "R2D2C3" none), .env (.request (.buildSnapshot "R2D2C3"))] ++ calls 2 5 300 ++
    [join "bob", join "cy"] ++ calls 3 11 400 ++ calls 4 4 500

/-- The snapshot is rebuilt while Ann has her seat and no row yet. -/
def forgotten : List SysLabel :=
  opened ++ [join "ann"] ++ calls 1 3 200 ++
    [.env (.putSnapshot "R2D2C3" none), .env (.request (.buildSnapshot "R2D2C3"))] ++ calls 2 5 300 ++
    calls 1 8 203 ++ [join "bob", join "cy"] ++ calls 3 11 400 ++ calls 4 11 500

end Demo

theorem capacity_respected_in_turn : ∃ S : SysState,
    S.shared.participants.map (·.nickname) = ["ann", "bob"] ∧ S.shared.counter "R2D2C3" = some 2 ∧
    ∀ r ∈ S.shared.rooms, (S.shared.active r.id).length ≤ r.maxPlayers := by
  have hRun : ((rooms Demo.outside).runWhile countsSettled (initial [⟨5, 7, true⟩]) Demo.inTurn).any
      (fun S => S.shared.participants.map (·.nickname) = ["ann", "bob"] ∧
        S.shared.counter "R2D2C3" = some 2) = true := by
    decide +kernel
  obtain ⟨S, hReach, hS⟩ := Machine.Reach.exists_of_runWhile hRun
  obtain ⟨hNames, hCount⟩ := of_decide_eq_true hS
  exact ⟨S, hNames, hCount, capacity_respected hReach⟩

/-- Three players are active in the room for two. -/
theorem capacity_exceeded : ∃ S : SysState,
    (rooms Demo.outside).Reach (fun _ _ => True) (initial [⟨5, 7, true⟩]) S ∧
    ∃ r ∈ S.shared.rooms, r.maxPlayers = 2 ∧ (S.shared.active r.id).length = 3 := by
  have hRun : ((rooms Demo.outside).run (initial [⟨5, 7, true⟩]) Demo.forgotten).any (fun S =>
      ∃ r ∈ S.shared.rooms, r.maxPlayers = 2 ∧ (S.shared.active r.id).length = 3) = true := by
    decide +kernel
  obtain ⟨S, hReach, hS⟩ := Machine.Reach.exists_of_run hRun
  exact ⟨S, hReach, of_decide_eq_true hS⟩

end LiveQuiz.Rooms
