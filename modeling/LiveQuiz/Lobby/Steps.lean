import LiveQuiz.Lobby.Service
import LiveQuiz.Lib.Contract
import LiveQuiz.Rooms.Seats
import LiveQuiz.Protocol.Tables

/-! # What one call changes

Between two calls of a program the others add rooms and move their statuses on; they never
touch what belongs to the program itself.
-/

namespace LiveQuiz.Lobby

open Coroutine

set_option autoImplicit false

section

variable {O : Rooms.Outside} {w v : World} {job : Job} {pid n : Nat} {o : Op} {d : Rooms.Decision}
  {out : Answer o}

theorem exec_cases (h : exec O w job pid n o d = some out) :
    (d.fault = .none ∧ perform O w job pid n o d = some out) ∨
    (d.fault = .fail ∧ out = ⟨w.setStage pid none, .error .fault, none⟩) ∨
    (d.fault = .lost ∧ ∃ a, perform O w job pid n o d = some a ∧
      out = ⟨a.shared.setStage pid none, .error .fault, none⟩) := by
  unfold exec at h
  split at h
  next hNone => exact .inl ⟨hNone, h⟩
  next hFail =>
    split at h <;> cases h
    exact .inr (.inl ⟨hFail, rfl⟩)
  next hLost =>
    split at h
    · obtain ⟨a, ha, rfl⟩ := Option.map_eq_some_iff.mp h
      exact .inr (.inr ⟨hLost, a, ha, rfl⟩)
    · cases h

theorem exec_effect (h : exec O w job pid n o d = some out) :
    (d.fault = .fail ∧ out.shared = w.setStage pid none) ∨
    ∃ a, d.fault ≠ .fail ∧ perform O w job pid n o d = some a ∧
      ((d.fault = .none ∧ out.shared = a.shared) ∨
        (d.fault = .lost ∧ out.shared = a.shared.setStage pid none)) := by
  obtain ⟨hNone, hOk⟩ | ⟨hFail, rfl⟩ | ⟨hLost, a, ha, rfl⟩ := exec_cases h
  · exact .inr ⟨out, by simp [hNone], hOk, .inl ⟨hNone, rfl⟩⟩
  · exact .inl ⟨hFail, rfl⟩
  · exact .inr ⟨a, by simp [hLost], ha, .inr ⟨hLost, rfl⟩⟩

theorem exec_ok (h : exec O w job pid n o d = some out) {a : o.Res} (ha : out.result = .ok a) :
    d.fault = .none ∧ perform O w job pid n o d = some out := by
  obtain hOk | ⟨-, rfl⟩ | ⟨-, b, -, rfl⟩ := exec_cases h
  · exact hOk
  · cases ha
  · cases ha

theorem lockRow_eq {ρ : Type} {ref : ρ → RowRef} {row : Option ρ} {a : World × Option ρ}
    (h : lockRow w pid ref row = some a) :
    a.2 = row ∧ ∃ locks, a.1 = { w with lock := locks } := by
  cases row with
  | none =>
    cases h
    exact ⟨rfl, w.lock, rfl⟩
  | some r =>
    simp only [lockRow] at h
    split at h
    · cases h
    · cases h
      exact ⟨rfl, _, rfl⟩

theorem perform_spawned (h : perform O w job pid n o d = some out) : out.spawned = none := by
  cases o with
  | room o =>
    obtain ⟨a, -, rfl⟩ := Option.map_eq_some_iff.mp h
    rfl
  | lockRoom c =>
    obtain ⟨a, -, rfl⟩ := Option.map_eq_some_iff.mp h
    rfl
  | lockRoomById i =>
    obtain ⟨a, -, rfl⟩ := Option.map_eq_some_iff.mp h
    rfl
  | lockMatch i =>
    obtain ⟨a, -, rfl⟩ := Option.map_eq_some_iff.mp h
    rfl
  | flush ws =>
    simp only [perform] at h
    split at h
    · cases h
      rfl
    · split at h <;> cases h
      rfl
  | _ =>
    cases h
    rfl

theorem exec_spawned (h : exec O w job pid n o d = some out) : out.spawned = none := by
  obtain ⟨-, hOk⟩ | ⟨-, rfl⟩ | ⟨-, a, -, rfl⟩ := exec_cases h
  · exact perform_spawned hOk
  · rfl
  · rfl

/-- A sequence of statements, as one row of `rooms` sees it. -/
def patched (ws : List HostWrite) (r : Rooms.Room) : Rooms.Room :=
  ws.foldl (fun r wr => match wr with
    | .setRoom i st => if r.id = i then { r with status := st } else r
    | _ => r) r

theorem patched_cons (wr : HostWrite) (ws : List HostWrite) (r : Rooms.Room) :
    patched (wr :: ws) r = patched ws (patched [wr] r) := rfl

theorem patched_one (wr : HostWrite) (r : Rooms.Room) :
    (patched [wr] r).id = r.id ∧ (patched [wr] r).code = r.code ∧
      (patched [wr] r).maxPlayers = r.maxPlayers := by
  cases wr with
  | setRoom i st =>
    simp only [patched, List.foldl_cons, List.foldl_nil]
    split <;> exact ⟨rfl, rfl, rfl⟩
  | _ => exact ⟨rfl, rfl, rfl⟩

theorem patched_keys (ws : List HostWrite) (r : Rooms.Room) :
    (patched ws r).id = r.id ∧ (patched ws r).code = r.code ∧
      (patched ws r).maxPlayers = r.maxPlayers := by
  induction ws generalizing r with
  | nil => exact ⟨rfl, rfl, rfl⟩
  | cons wr ws ih =>
    obtain ⟨hId, hCode, hMax⟩ := ih (patched [wr] r)
    obtain ⟨hId', hCode', hMax'⟩ := patched_one wr r
    rw [patched_cons]
    exact ⟨hId.trans hId', hCode.trans hCode', hMax.trans hMax'⟩

/-- A room that the statements leave in its lobby was there before, and is not among those
they move. -/
theorem patched_lobby {ws : List HostWrite} (hNot : ∀ i st, .setRoom i st ∈ ws → st ≠ .lobby)
    {r : Rooms.Room} (h : (patched ws r).status = .lobby) :
    r.status = .lobby ∧ ∀ st, .setRoom r.id st ∉ ws := by
  induction ws generalizing r with
  | nil => exact ⟨h, fun _ => List.not_mem_nil⟩
  | cons wr ws ih =>
    rw [patched_cons] at h
    obtain ⟨hOne, hRest⟩ := ih (fun i st hMem => hNot i st (List.mem_cons_of_mem _ hMem)) h
    rw [(patched_one wr r).1] at hRest
    cases wr with
    | setRoom i st =>
      simp only [patched, List.foldl_cons, List.foldl_nil] at hOne
      split at hOne
      · exact absurd hOne (hNot i st List.mem_cons_self)
      next hId =>
        refine ⟨hOne, fun st' hMem => ?_⟩
        obtain hEq | hMem := List.mem_cons.mp hMem
        · cases hEq
          exact hId rfl
        · exact hRest st' hMem
    | _ =>
      refine ⟨hOne, fun st' hMem => ?_⟩
      obtain hEq | hMem := List.mem_cons.mp hMem
      · cases hEq
      · exact hRest st' hMem

/-- The tables after the statements of a host request. -/
structure Applied (ws : List HostWrite) (w v : World) : Prop where
  rooms : v.room.rooms = w.room.rooms.map (patched ws)
  tx : v.room.tx = w.room.tx
  snapshot : v.room.snapshot = w.room.snapshot
  pending : v.tx = w.tx
  stage : v.stage = w.stage
  log : v.log = w.log

theorem applied (ws : List HostWrite) (w : World) :
    Applied ws w (Transactions.applyAll HostWrite.apply ws w) := by
  constructor
  · induction ws generalizing w with
    | nil => exact (List.map_id w.room.rooms).symm
    | cons wr ws ih =>
      have hOne : (wr.apply w).room.rooms = w.room.rooms.map (patched [wr]) := by
        cases wr with
        | setRoom i st => rfl
        | _ => exact (List.map_id w.room.rooms).symm
      rw [Transactions.applyAll_cons, ih, hOne, List.map_map]
      rfl
  · exact Transactions.applyAll_same (g := fun w : World => w.room.tx) fun wr _ w => by cases wr <;> rfl
  · exact Transactions.applyAll_same (g := fun w : World => w.room.snapshot) fun wr _ w => by
      cases wr <;> rfl
  · exact Transactions.applyAll_same (g := fun w : World => w.tx) fun wr _ w => by cases wr <;> rfl
  · exact Transactions.applyAll_same (g := World.stage) fun wr _ w => by cases wr <;> rfl
  · exact Transactions.applyAll_same (g := World.log) fun wr _ w => by cases wr <;> rfl

theorem perform_added {o : Rooms.Op} {a : Rooms.Answer o}
    (h : Rooms.perform O w.room pid n o d = some a) :
    ∃ added, a.shared.rooms = w.room.rooms ++ added := by
  by_cases hCommit : o = .commit
  · subst hCommit
    cases h
    exact ⟨_, (Rooms.committed w.room pid).rooms⟩
  · refine ⟨[], ?_⟩
    rw [List.append_nil]
    cases o with
    | commit => exact absurd rfl hCommit
    | flush wr => exact (Rooms.perform_steady rfl h).rooms
    | countAdmit c m =>
      cases h
      obtain hEq | ⟨-, hEq⟩ := Rooms.admit_cases w.room pid c m
      · rw [hEq]
      · rw [hEq]
        rfl
    | countRelease c =>
      cases h
      exact (Rooms.release_rows w.room pid c).1
    | _ =>
      cases h
      rfl

theorem observe_room (w : World) (job : Job) (pid : Nat) (o : Rooms.Op) (r : Except Exn o.Res) :
    (w.observe job pid o r).tx = w.tx ∧ (w.observe job pid o r).lock = w.lock ∧
      (w.observe job pid o r).matches' = w.matches' ∧
      ∀ q, q ≠ pid → (w.observe job pid o r).stage q = w.stage q := by
  have hSet : ∀ st, ∀ q, q ≠ pid → (w.setStage pid st).stage q = w.stage q :=
    fun st q hq => Function.update_of_ne hq _ _
  unfold World.observe
  split
  · split
    · exact ⟨rfl, rfl, rfl, hSet _⟩
    · exact ⟨rfl, rfl, rfl, fun _ _ => rfl⟩
  · exact ⟨rfl, rfl, rfl, hSet _⟩
  · exact ⟨rfl, rfl, rfl, hSet _⟩
  · exact ⟨rfl, rfl, rfl, hSet _⟩
  · exact ⟨rfl, rfl, rfl, hSet _⟩
  · exact ⟨rfl, rfl, rfl, hSet _⟩
  · exact ⟨rfl, rfl, rfl, hSet _⟩
  · exact ⟨rfl, rfl, rfl, fun _ _ => rfl⟩

theorem perform_rooms (h : perform O w job pid n o d = some out) :
    ∃ ws added, out.shared.room.rooms = w.room.rooms.map (patched ws) ++ added ∧
      ws ⊆ w.tx pid := by
  have hSame : out.shared.room.rooms = w.room.rooms →
      ∃ ws added, out.shared.room.rooms = w.room.rooms.map (patched ws) ++ added ∧
        ws ⊆ w.tx pid := by
    intro hEq
    refine ⟨[], [], ?_, List.nil_subset _⟩
    rw [hEq, List.append_nil]
    exact (List.map_id w.room.rooms).symm
  cases o with
  | room o =>
    obtain ⟨a, ha, rfl⟩ := Option.map_eq_some_iff.mp h
    obtain ⟨added, hAdded⟩ := perform_added ha
    refine ⟨[], added, ?_, List.nil_subset _⟩
    refine hAdded.trans ?_
    congr 1
    exact (List.map_id w.room.rooms).symm
  | lockRoom c =>
    obtain ⟨a, ha, rfl⟩ := Option.map_eq_some_iff.mp h
    obtain ⟨-, locks, hEq⟩ := lockRow_eq ha
    exact hSame (by rw [hEq])
  | lockRoomById i =>
    obtain ⟨a, ha, rfl⟩ := Option.map_eq_some_iff.mp h
    obtain ⟨-, locks, hEq⟩ := lockRow_eq ha
    exact hSame (by rw [hEq])
  | lockMatch i =>
    obtain ⟨a, ha, rfl⟩ := Option.map_eq_some_iff.mp h
    obtain ⟨-, locks, hEq⟩ := lockRow_eq ha
    exact hSame (by rw [hEq])
  | flush ws =>
    simp only [perform] at h
    split at h
    · cases h
      exact hSame rfl
    · split at h <;> cases h
      exact hSame rfl
  | commit =>
    cases h
    refine ⟨w.tx pid, [], ?_, List.Subset.refl _⟩
    rw [List.append_nil]
    exact (applied (w.tx pid) w).rooms
  | _ =>
    cases h
    exact hSame rfl

/-- What a program keeps to itself. -/
structure Own (pid : Nat) (w v : World) : Prop where
  tx : v.room.tx pid = w.room.tx pid
  pending : v.tx pid = w.tx pid
  stage : v.stage pid = w.stage pid

theorem Own.refl (pid : Nat) (w : World) : Own pid w w := ⟨rfl, rfl, rfl⟩

theorem Own.trans {u : World} (h : Own pid w v) (h' : Own pid v u) : Own pid w u :=
  ⟨h'.tx.trans h.tx, h'.pending.trans h.pending, h'.stage.trans h.stage⟩

theorem perform_own (h : perform O w job pid n o d = some out) {q : Nat} (hq : q ≠ pid) :
    Own q w out.shared := by
  cases o with
  | room o =>
    obtain ⟨a, ha, rfl⟩ := Option.map_eq_some_iff.mp h
    obtain ⟨hPending, -, -, hStage⟩ := observe_room w job pid o a.result
    exact ⟨(Rooms.perform_leaves ha).tx q hq, congrFun hPending q, hStage q hq⟩
  | lockRoom c =>
    obtain ⟨a, ha, rfl⟩ := Option.map_eq_some_iff.mp h
    obtain ⟨-, locks, hEq⟩ := lockRow_eq ha
    rw [hEq]
    exact ⟨rfl, rfl, rfl⟩
  | lockRoomById i =>
    obtain ⟨a, ha, rfl⟩ := Option.map_eq_some_iff.mp h
    obtain ⟨-, locks, hEq⟩ := lockRow_eq ha
    rw [hEq]
    exact ⟨rfl, rfl, rfl⟩
  | lockMatch i =>
    obtain ⟨a, ha, rfl⟩ := Option.map_eq_some_iff.mp h
    obtain ⟨-, locks, hEq⟩ := lockRow_eq ha
    rw [hEq]
    exact ⟨rfl, rfl, rfl⟩
  | flush ws =>
    simp only [perform] at h
    split at h
    · cases h
      exact Own.refl q w
    · split at h <;> cases h
      exact ⟨rfl, Function.update_of_ne hq _ _, rfl⟩
  | commit =>
    cases h
    have hApplied := applied (w.tx pid) w
    constructor
    · exact congrFun hApplied.tx q
    · refine (Function.update_of_ne hq _ _).trans ?_
      rw [hApplied.pending]
    · refine (Function.update_of_ne hq _ _).trans ?_
      exact congrFun hApplied.stage q
  | rollback =>
    cases h
    exact ⟨rfl, Function.update_of_ne hq _ _, Function.update_of_ne hq _ _⟩
  | _ =>
    cases h
    exact Own.refl q w

theorem setStage_own {st : Option Stage} {q : Nat} (hq : q ≠ pid) : Own q w (w.setStage pid st) :=
  ⟨rfl, rfl, Function.update_of_ne hq _ _⟩

theorem exec_own (h : exec O w job pid n o d = some out) {q : Nat} (hq : q ≠ pid) :
    Own q w out.shared := by
  obtain ⟨-, hEq⟩ | ⟨a, -, ha, ⟨-, hEq⟩ | ⟨-, hEq⟩⟩ := exec_effect h
  · rw [hEq]
    exact setStage_own hq
  · rw [hEq]
    exact perform_own ha hq
  · rw [hEq]
    exact (perform_own ha hq).trans (setStage_own hq)

/-- The rooms stay under their codes, and none returns to its lobby. -/
def Onward (w v : World) : Prop :=
  ∀ c r, w.roomAt c = some r → ∃ r', v.roomAt c = some r' ∧ r'.id = r.id ∧
    (r'.status = .lobby → r.status = .lobby)

theorem Onward.of_rooms (h : v.room.rooms = w.room.rooms) : Onward w v := by
  intro c r hr
  refine ⟨r, ?_, rfl, id⟩
  rw [World.roomAt, h]
  exact hr

theorem Onward.trans {u : World} (h : Onward w v) (h' : Onward v u) : Onward w u := by
  intro c r hr
  obtain ⟨r₁, hr₁, hId₁, hLobby₁⟩ := h c r hr
  obtain ⟨r₂, hr₂, hId₂, hLobby₂⟩ := h' c r₁ hr₁
  exact ⟨r₂, hr₂, hId₂.trans hId₁, fun hl => hLobby₁ (hLobby₂ hl)⟩

theorem roomAt_patched {ws : List HostWrite} {added : List Rooms.Room}
    (h : v.room.rooms = w.room.rooms.map (patched ws) ++ added) {c : String} {r : Rooms.Room}
    (hr : w.roomAt c = some r) : v.roomAt c = some (patched ws r) := by
  have hCode : (fun r => decide (r.code = c)) ∘ patched ws = fun r : Rooms.Room => decide (r.code = c) := by
    funext r
    simp only [Function.comp_apply, (patched_keys ws r).2.1]
  rw [World.roomAt, h, List.find?_append, List.find?_map, hCode]
  rw [World.roomAt] at hr
  rw [hr]
  rfl

theorem perform_onward (h : perform O w job pid n o d = some out)
    (hNot : ∀ i st, .setRoom i st ∈ w.tx pid → st ≠ .lobby) : Onward w out.shared := by
  obtain ⟨ws, added, hRooms, hSub⟩ := perform_rooms h
  intro c r hr
  refine ⟨patched ws r, roomAt_patched hRooms hr, (patched_keys ws r).1, fun hLobby => ?_⟩
  exact (patched_lobby (fun i st hMem => hNot i st (hSub hMem)) hLobby).1

theorem exec_onward (h : exec O w job pid n o d = some out)
    (hNot : ∀ i st, .setRoom i st ∈ w.tx pid → st ≠ .lobby) : Onward w out.shared := by
  obtain ⟨-, hEq⟩ | ⟨a, -, ha, ⟨-, hEq⟩ | ⟨-, hEq⟩⟩ := exec_effect h
  · rw [hEq]
    exact .of_rooms rfl
  · rw [hEq]
    exact perform_onward ha hNot
  · rw [hEq]
    exact (perform_onward ha hNot).trans (.of_rooms rfl)

theorem env_rooms {e : EnvAction} {res : World × Option Job} (h : env w n e = some res) :
    res.1.room.rooms = w.room.rooms ∧ res.1.room.participants = w.room.participants ∧
      res.1.room.tx = w.room.tx ∧ res.1.tx = w.tx ∧ res.1.stage = w.stage ∧
      res.1.log = w.log ∧ res.1.matches' = w.matches' := by
  cases e <;> cases h <;> exact ⟨rfl, rfl, rfl, rfl, rfl, rfl, rfl⟩

end

end LiveQuiz.Lobby
