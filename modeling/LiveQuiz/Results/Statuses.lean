import LiveQuiz.Protocol.Moves
import Mathlib.Data.List.Chain

/-! # Room and match status agree

Four transactions write the status of a room and of its match, two of them after
locking the room and one after locking the match. Each writes both rows, and none
commits without both locks, so the two columns move together.
-/

namespace LiveQuiz

open Coroutine

set_option autoImplicit false

/-- The edges of a room's life. -/
def RoomStatus.follows : RoomStatus → RoomStatus → Bool
  | .lobby, .running => true
  | .running, .paused | .paused, .running => true
  | .running, .completed | .paused, .completed => true
  | _, _ => false

def Write.roomStatus? (roomId : Id) : Write → Option RoomStatus
  | .updateRoom i st _ _ => if i = roomId then some st else none
  | _ => none

/-- The statuses committed for a room, oldest first. -/
def statuses (wal : List (Nat × List Write)) (roomId : Id) : List RoomStatus :=
  .lobby :: wal.flatMap fun c => c.2.filterMap (Write.roomStatus? roomId)

def Db.statusOf (db : Db) (roomId : Id) : RoomStatus :=
  match db.rooms.find? (·.id = roomId) with
  | some r => r.status
  | none => .lobby

/-- Rooms as the room service leaves them before any match: distinct, in the lobby. -/
structure Seed.Lobby (seed : Seed) : Prop where
  ids : seed.rooms.Pairwise fun a b => a.id ≠ b.id
  status : ∀ r ∈ seed.rooms, r.status = .lobby

/-- Every match has a room with its status, and only rooms with a match have left
the lobby. -/
structure Agree (db : Db) : Prop where
  ids : db.rooms.Pairwise fun a b => a.id ≠ b.id
  hosted : ∀ m ∈ db.matches', ∃ r ∈ db.rooms, r.id = m.roomId ∧ r.status = m.status
  begun : ∀ m ∈ db.matches', m.status = .running ∨ m.status = .paused ∨ m.status = .completed
  lobby : ∀ r ∈ db.rooms, r.status ≠ .lobby → ∃ m ∈ db.matches', m.roomId = r.id

section

variable {db : Db} {i j : Id}

theorem Agree.room_eq (h : Agree db) {a b : Room} (ha : a ∈ db.rooms) (hb : b ∈ db.rooms)
    (hab : a.id = b.id) : a = b :=
  eq_of_pairwise h.ids (fun _ _ h => h.symm) ha hb fun h => h hab

theorem Agree.statusOf (h : Agree db) {r : Room} (hr : r ∈ db.rooms) :
    db.statusOf r.id = r.status := by
  unfold Db.statusOf
  cases hFind : db.rooms.find? (·.id = r.id) with
  | none => simpa using List.find?_eq_none.mp hFind r hr
  | some r' =>
    have hId : r'.id = r.id := by simpa using List.find?_some hFind
    rw [h.room_eq (List.mem_of_find?_eq_some hFind) hr hId]

theorem Agree.move (h : Agree db) (hKeys : db.Keys) {m : Match} (hm : m ∈ db.matches')
    {st : RoomStatus} {sa ea ea' : Option Micros}
    (hSt : st = .running ∨ st = .paused ∨ st = .completed) {db' : Db}
    (hRooms : db'.rooms = updateWhere Room.id m.roomId (Room.patch st sa ea) db.rooms)
    (hMatches : db'.matches' = updateWhere Match.id m.id (Match.patch st ea') db.matches') :
    Agree db' := by
  have hNe : st ≠ .lobby := by
    obtain rfl | rfl | rfl := hSt <;> simp
  constructor
  · rw [hRooms]
    exact pairwise_updateWhere (fun _ _ h => h) (fun _ _ h => h) h.ids
  · rw [hRooms, hMatches]
    intro x' hx'
    obtain ⟨hx, hId⟩ | ⟨x, hx, hId, rfl⟩ := mem_updateWhere.mp hx'
    · obtain ⟨r, hr, hRoom, hStatus⟩ := h.hosted x' hx
      refine ⟨r, mem_updateWhere_of_ne hr fun hEq => hId ?_, hRoom, hStatus⟩
      rw [hKeys.match_eq hx hm (.inr (hRoom.symm.trans hEq))]
    · obtain rfl := hKeys.match_eq hx hm (.inl hId)
      obtain ⟨r, hr, hRoom, -⟩ := h.hosted x hx
      exact ⟨_, mem_updateWhere_of_eq hr hRoom, hRoom, rfl⟩
  · rw [hMatches]
    intro x' hx'
    obtain ⟨hx, -⟩ | ⟨x, -, -, rfl⟩ := mem_updateWhere.mp hx'
    · exact h.begun x' hx
    · exact hSt
  · rw [hRooms, hMatches]
    have hKept : ∀ x ∈ db.matches', ∃ x' ∈ updateWhere Match.id m.id (Match.patch st ea') db.matches',
        x'.roomId = x.roomId := by
      intro x hx
      by_cases hId : x.id = m.id
      · exact ⟨_, mem_updateWhere_of_eq hx hId, rfl⟩
      · exact ⟨x, mem_updateWhere_of_ne hx hId, rfl⟩
    intro r' hr' hLeft
    obtain ⟨hr, -⟩ | ⟨r, -, hId, rfl⟩ := mem_updateWhere.mp hr'
    · obtain ⟨x, hx, hRoom⟩ := h.lobby r' hr hLeft
      obtain ⟨x', hx', hRoom'⟩ := hKept x hx
      exact ⟨x', hx', hRoom'.trans hRoom⟩
    · obtain ⟨x', hx', hRoom'⟩ := hKept m hm
      exact ⟨x', hx', hRoom'.trans hId.symm⟩

theorem Agree.start (h : Agree db) {room : Room} (hr : room ∈ db.rooms)
    (hLobby : room.status = .lobby) {m : Match} (hm : m.roomId = room.id)
    (hRunning : m.status = .running) {sa ea : Option Micros} {db' : Db}
    (hRooms : db'.rooms = updateWhere Room.id room.id (Room.patch .running sa ea) db.rooms)
    (hMatches : db'.matches' = db.matches' ++ [m]) : Agree db' := by
  constructor
  · rw [hRooms]
    exact pairwise_updateWhere (fun _ _ h => h) (fun _ _ h => h) h.ids
  · rw [hRooms, hMatches]
    intro x hx
    obtain hx | hx := List.mem_append.mp hx
    · obtain ⟨r, hr', hRoom, hStatus⟩ := h.hosted x hx
      refine ⟨r, mem_updateWhere_of_ne hr' fun hEq => ?_, hRoom, hStatus⟩
      rw [h.room_eq hr' hr hEq, hLobby] at hStatus
      have hBegun := h.begun x hx
      simp [← hStatus] at hBegun
    · obtain rfl := List.mem_singleton.mp hx
      exact ⟨_, mem_updateWhere_of_eq hr rfl, hm.symm, hRunning.symm⟩
  · rw [hMatches]
    intro x hx
    obtain hx | hx := List.mem_append.mp hx
    · exact h.begun x hx
    · obtain rfl := List.mem_singleton.mp hx
      exact .inl hRunning
  · rw [hRooms, hMatches]
    intro r' hr' hLeft
    obtain ⟨hOld, -⟩ | ⟨r, -, hId, rfl⟩ := mem_updateWhere.mp hr'
    · obtain ⟨x, hx, hRoom⟩ := h.lobby r' hOld hLeft
      exact ⟨x, List.mem_append_left _ hx, hRoom⟩
    · exact ⟨m, List.mem_append_right _ (List.mem_singleton_self m), hm.trans hId.symm⟩

end

/-- The room statuses a transaction writes. -/
inductive StatusMove (db : Db) (ws : List Write) : Prop
  | none : (applyAll ws db).rooms = db.rooms →
      (∀ i, ws.filterMap (Write.roomStatus? i) = []) → StatusMove db ws
  | one (i : Id) (st : RoomStatus) (sa ea : Option Micros) :
      (applyAll ws db).rooms = updateWhere Room.id i (Room.patch st sa ea) db.rooms →
      (∀ j, ws.filterMap (Write.roomStatus? j) = if i = j then [st] else []) →
      (∃ r ∈ db.rooms, r.id = i) → (db.statusOf i).follows st = true → StatusMove db ws

section

variable {n pid : Nat} {w : World} {job : Job} {ws : List Write}

theorem Agree.statusOf_match {db : Db} (h : Agree db) {m : Match} (hm : m ∈ db.matches') :
    (∃ r ∈ db.rooms, r.id = m.roomId) ∧ db.statusOf m.roomId = m.status := by
  obtain ⟨r, hr, hRoom, hStatus⟩ := h.hosted m hm
  exact ⟨⟨r, hr, hRoom⟩, by rw [← hRoom, h.statusOf hr, hStatus]⟩

theorem Commit.statusMove (hC : Commit w pid job ws) (h : Agree w.db) : StatusMove w.db ws := by
  cases hC with
  | start host code matchId room quiz questions ids startedAt eventId hRoom hLobby =>
    refine .one room.id .running (some startedAt) none (by rw [applyAll_startWrites]) (fun j => ?_)
      ⟨room, hRoom, rfl⟩ (by rw [h.statusOf hRoom, hLobby]; rfl)
    have hNone : ∀ mqs : List MatchQuestion,
        (mqs.map Write.insertMatchQuestion).filterMap (Write.roomStatus? j) = [] := by
      simp [List.filterMap_eq_nil_iff, Write.roomStatus?]
    by_cases hj : room.id = j
    · simp [startWrites, List.filterMap_cons, List.filterMap_append, hNone, Write.roomStatus?, hj]
    · simp [startWrites, List.filterMap_cons, List.filterMap_append, hNone, Write.roomStatus?, hj]
  | pause host code m hm _ hStatus =>
    obtain ⟨hRoom, hOf⟩ := h.statusOf_match hm
    refine .one m.roomId .paused none none rfl (fun j => ?_) hRoom (by rw [hOf, hStatus]; rfl)
    by_cases hj : m.roomId = j <;> simp [Write.roomStatus?, hj]
  | resume host code m deadline hm _ hStatus hDeadline =>
    obtain ⟨hRoom, hOf⟩ := h.statusOf_match hm
    refine .one m.roomId .running none none ?_ (fun j => ?_) hRoom (by rw [hOf, hStatus]; rfl)
    · obtain rfl | ⟨i, u, -, rfl⟩ := hDeadline <;> rfl
    · obtain rfl | ⟨i, u, -, rfl⟩ := hDeadline
      · by_cases hj : m.roomId = j <;> simp [Write.roomStatus?, hj]
      · by_cases hj : m.roomId = j <;> simp [Write.roomStatus?, hj]
  | finish _ m room subs participants endedAt eventId _ hm _ hStatus hId =>
    obtain ⟨hRoom, hOf⟩ := h.statusOf_match hm
    refine .one m.roomId .completed none (some endedAt) ?_ (fun j => ?_) hRoom ?_
    · rw [applyAll_finishWrites, hId]
    · have hNone : ∀ scores : List FinalScore,
          (scores.map Write.insertFinalScore).filterMap (Write.roomStatus? j) = [] := by
        simp [List.filterMap_eq_nil_iff, Write.roomStatus?]
      by_cases hj : m.roomId = j
      · simp [finishWrites, List.filterMap_cons, List.filterMap_append, hNone, Write.roomStatus?,
          hId, hj]
      · simp [finishWrites, List.filterMap_cons, List.filterMap_append, hNone, Write.roomStatus?,
          hId, hj]
    · rw [hOf]
      obtain hOld | hOld | hOld := h.begun m hm
      · rw [hOld]; rfl
      · rw [hOld]; rfl
      · exact absurd hOld hStatus
  | arm => exact .none rfl fun i => rfl
  | close => exact .none rfl fun i => rfl
  | submit => exact .none rfl fun i => rfl
  | empty => exact .none rfl fun i => rfl

theorem Commit.agree (hC : Commit w pid job ws) (hInv : Inv n w) (h : Agree w.db) :
    Agree (applyAll ws w.db) := by
  cases hC with
  | start host code matchId room quiz questions ids startedAt eventId hRoom hLobby =>
    exact h.start hRoom hLobby rfl rfl (by rw [applyAll_startWrites]) (by rw [applyAll_startWrites])
  | pause host code m hm => exact h.move hInv.keys hm (.inr (.inl rfl)) rfl rfl
  | resume host code m deadline hm _ _ hDeadline =>
    obtain rfl | ⟨i, u, -, rfl⟩ := hDeadline
    · exact h.move hInv.keys hm (.inl rfl) rfl rfl
    · exact h.move hInv.keys hm (.inl rfl) rfl rfl
  | finish _ m room subs participants endedAt eventId _ hm _ _ hId =>
    rw [applyAll_finishWrites, hId]
    exact h.move hInv.keys hm (.inr (.inr rfl)) rfl rfl
  | arm => exact ⟨h.ids, h.hosted, h.begun, h.lobby⟩
  | close => exact ⟨h.ids, h.hosted, h.begun, h.lobby⟩
  | submit => exact ⟨h.ids, h.hosted, h.begun, h.lobby⟩
  | empty => exact h

end

/-- The status of every room is the last one committed for it, and each followed
the one before. -/
structure Chained (w : World) : Prop where
  agree : Agree w.db
  chain : ∀ i, (statuses w.wal i).IsChain fun a b => a.follows b = true
  current : ∀ i, (statuses w.wal i).getLast? = some (w.db.statusOf i)

section

variable {C : SysState → SysLabel → Prop} {seed : Seed} {S S' : SysState} {l : SysLabel}

theorem env_rooms {w : World} {n : Nat} {e : EnvAction} {out : World × Option Task}
    (h : env w n e = some out) : out.1.db.rooms = w.db.rooms ∨
      ∃ r, r.status = .lobby ∧ (∀ r' ∈ w.db.rooms, r'.id ≠ r.id) ∧
        out.1.db.rooms = w.db.rooms ++ [r] := by
  cases e with
  | createRoom r =>
    simp only [env] at h
    split at h
    next hFresh =>
      cases h
      refine .inr ⟨r, hFresh.1, fun r' hr' => ?_, rfl⟩
      have := List.all_eq_true.mp hFresh.2 r' hr'
      simp only [decide_eq_true_eq] at this
      exact this.1
    · cases h
  | boot r =>
    simp only [env] at h
    split at h <;> cases h
    exact .inl rfl
  | request r j =>
    simp only [env] at h
    split at h <;> cases h
    exact .inl rfl
  | crash r =>
    simp only [env] at h
    split at h <;> cases h
    exact .inl rfl
  | edit e =>
    obtain ⟨db, hEdit, rfl⟩ := Option.map_eq_some_iff.mp h
    obtain ⟨qs, xs, os, rfl⟩ := QuizEdit.apply_eq hEdit
    exact .inl rfl
  | join p =>
    simp only [env] at h
    split at h <;> cases h
    exact .inl rfl
  | _ => cases h; exact .inl rfl

theorem Chained.newRoom {w w' : World} (h : Chained w) {r : Room} (hLobby : r.status = .lobby)
    (hFresh : ∀ r' ∈ w.db.rooms, r'.id ≠ r.id) (hRooms : w'.db.rooms = w.db.rooms ++ [r])
    (hMatches : w'.db.matches' = w.db.matches') (hWal : w'.wal = w.wal) : Chained w' := by
  refine ⟨⟨?_, ?_, ?_, ?_⟩, ?_, ?_⟩
  · rw [hRooms]
    exact pairwise_concat h.agree.ids hFresh
  · rw [hRooms, hMatches]
    intro m hm
    obtain ⟨r', hr', hEq⟩ := h.agree.hosted m hm
    exact ⟨r', List.mem_append_left _ hr', hEq⟩
  · rw [hMatches]
    exact h.agree.begun
  · rw [hRooms, hMatches]
    intro r' hr' hLeft
    obtain hr' | hr' := List.mem_append.mp hr'
    · exact h.agree.lobby r' hr' hLeft
    · rw [List.mem_singleton.mp hr'] at hLeft
      exact absurd hLobby hLeft
  · rw [hWal]
    exact h.chain
  · intro i
    rw [hWal, h.current i]
    unfold Db.statusOf
    rw [hRooms, List.find?_append]
    cases hFind : w.db.rooms.find? (·.id = i) with
    | some r' => rfl
    | none =>
      by_cases hi : r.id = i
      · simp [hi, hLobby]
      · simp [hi]

theorem statusOf_updateWhere {db db' : Db} {i : Id} {st : RoomStatus} {sa ea : Option Micros}
    (hRooms : db'.rooms = updateWhere Room.id i (Room.patch st sa ea) db.rooms)
    (hMem : ∃ r ∈ db.rooms, r.id = i) (j : Id) :
    db'.statusOf j = if i = j then st else db.statusOf j := by
  unfold Db.statusOf
  have hKey : ∀ r : Room, (Room.patch st sa ea r).id = r.id := fun _ => rfl
  rw [hRooms, find?_updateWhere hKey]
  cases hFind : db.rooms.find? (·.id = j) with
  | none =>
    have hNe : i ≠ j := by
      obtain ⟨r, hr, rfl⟩ := hMem
      simpa using List.find?_eq_none.mp hFind r hr
    simp [hNe]
  | some r =>
    have hId : r.id = j := by simpa using List.find?_some hFind
    by_cases hi : i = j
    · simp [hId, hi, Room.patch]
    · have hNe : r.id ≠ i := fun hEq => hi (hEq.symm.trans hId)
      simp [hi, hNe]

theorem statuses_append (wal : List (Nat × List Write)) (pid : Nat) (ws : List Write) (i : Id) :
    statuses (wal ++ [(pid, ws)]) i = statuses wal i ++ ws.filterMap (Write.roomStatus? i) := by
  simp [statuses]

theorem Chained.commit {w w' : World} {pid : Nat} {ws : List Write} (h : Chained w)
    (hMove : StatusMove w.db ws) (hAgree : Agree w'.db) (hDb : w'.db = applyAll ws w.db)
    (hWal : w'.wal = w.wal ++ [(pid, ws)]) : Chained w' := by
  refine ⟨hAgree, fun i => ?_, fun i => ?_⟩
  · rw [hWal, statuses_append]
    cases hMove with
    | none _ hNone => rw [hNone, List.append_nil]; exact h.chain i
    | one j st sa ea _ hOne _ hFollows =>
      rw [hOne]
      split
      next hEq =>
        subst hEq
        refine List.isChain_append.mpr ⟨h.chain j, by simp, fun a ha b hb => ?_⟩
        rw [h.current j] at ha
        cases ha
        cases hb
        exact hFollows
      · rw [List.append_nil]
        exact h.chain i
  · rw [hWal, statuses_append]
    cases hMove with
    | none hSame hNone =>
      rw [hNone, List.append_nil, h.current i, hDb]
      unfold Db.statusOf
      rw [hSame]
    | one j st sa ea hRooms hOne hMem _ =>
      rw [hOne, hDb, statusOf_updateWhere hRooms hMem]
      split
      · simp
      · rw [List.append_nil]
        exact h.current i

theorem chained_step (hS : Held S) (h : Chained S.shared) (hStep : service.step S l = some S') :
    Chained S'.shared := by
  have hSame : ∀ {w : World}, w.db.rooms = S.shared.db.rooms →
      w.db.matches' = S.shared.db.matches' → w.wal = S.shared.wal → Chained w := by
    intro w hRooms hMatches hWal
    refine ⟨⟨?_, ?_, ?_, ?_⟩, ?_, ?_⟩
    · exact hRooms ▸ h.agree.ids
    · rw [hRooms, hMatches]
      exact h.agree.hosted
    · exact hMatches ▸ h.agree.begun
    · rw [hRooms, hMatches]
      exact h.agree.lobby
    · exact hWal ▸ h.chain
    · unfold Db.statusOf
      rw [hRooms, hWal]
      exact h.current
  obtain ⟨hDb, hWal⟩ | ⟨e, out, -, hEnv, hEq⟩ | ⟨pid, t, hC⟩ := step_effect hS hStep
  · exact hSame (by rw [hDb]) (by rw [hDb]) hWal
  · have hEnvSame := env_same (n := S.procs.length) hEnv
    rw [hEq]
    obtain hRooms | ⟨r, hLobby, hFresh, hRooms⟩ := env_rooms hEnv
    · exact hSame hRooms hEnvSame.matches' hEnvSame.wal
    · exact h.newRoom hLobby hFresh hRooms hEnvSame.matches' hEnvSame.wal
  · refine h.commit (hC.shape.statusMove h.agree) ?_ hC.db hC.wal
    rw [hC.db]
    exact hC.shape.agree hS.inv h.agree

theorem chained_initial (hSeed : seed.Lobby) : Chained (.genesis seed) := by
  refine ⟨⟨hSeed.ids, ?_, ?_, ?_⟩, ?_, ?_⟩
  · intro m hm
    cases hm
  · intro m hm
    cases hm
  · intro r hr hLeft
    exact absurd (hSeed.status r hr) hLeft
  · exact fun i => List.isChain_singleton _
  · intro i
    change some RoomStatus.lobby = _
    unfold Db.statusOf
    cases hFind : (World.genesis seed).db.rooms.find? (·.id = i) with
    | none => rfl
    | some r => exact congrArg some (hSeed.status r (List.mem_of_find?_eq_some hFind)).symm

theorem chained_reach (hSeed : seed.Lobby) (h : service.Reach C (initial seed) S) :
    Chained S.shared := by
  induction h with
  | refl => exact chained_initial hSeed
  | tail hReach _ hStep ih => exact chained_step (held_of_reach hReach) ih hStep

/-- A room has a match exactly when it has left the lobby, the two have one status,
and the statuses committed for it follow the edges of its life. -/
theorem status_agrees (hSeed : seed.Lobby)
    (h : service.Reach (fun _ _ => True) (initial seed) S) :
    (∀ m ∈ S.shared.db.matches', ∃ r ∈ S.shared.db.rooms, r.id = m.roomId) ∧
    ∀ r ∈ S.shared.db.rooms,
      ((∃ m ∈ S.shared.db.matches', m.roomId = r.id) ↔ r.status ≠ .lobby) ∧
      (∀ m ∈ S.shared.db.matches', m.roomId = r.id → r.status = m.status) ∧
      (statuses S.shared.wal r.id).IsChain (fun a b => a.follows b = true) ∧
      (statuses S.shared.wal r.id).getLast? = some r.status := by
  obtain ⟨hAgree, hChain, hCurrent⟩ := chained_reach hSeed h
  have hStatus : ∀ r ∈ S.shared.db.rooms, ∀ m ∈ S.shared.db.matches', m.roomId = r.id →
      r.status = m.status := by
    intro r hr m hm hRoom
    obtain ⟨r', hr', hRoom', hStatus⟩ := hAgree.hosted m hm
    rw [← hStatus, hAgree.room_eq hr hr' (hRoom.symm.trans hRoom'.symm)]
  constructor
  · intro m hm
    obtain ⟨r, hr, hRoom, -⟩ := hAgree.hosted m hm
    exact ⟨r, hr, hRoom⟩
  · intro r hr
    refine ⟨⟨?_, hAgree.lobby r hr⟩, hStatus r hr, hChain r.id, ?_⟩
    · rintro ⟨m, hm, hRoom⟩ hLobby
      have hBegun := hAgree.begun m hm
      rw [← hStatus r hr m hm hRoom, hLobby] at hBegun
      simp at hBegun
    · rw [hCurrent, hAgree.statusOf hr]

end

def Demo.controls : List SysLabel :=
  Demo.opening ++ [.env (.request 0 (.pauseMatch 7 "AB"))] ++ Demo.calls 4 9 110 ++
    [.env (.request 0 (.resumeMatch 7 "AB"))] ++ Demo.calls 5 9 120 ++
    [.env (.request 0 (.endMatch 54 (some 7)))] ++ Demo.calls 7 11 140

theorem status_agrees_controls : ∃ S, service.Reach (fun _ _ => True) (initial Demo.seed) S ∧
    (∀ m ∈ S.shared.db.matches', ∃ r ∈ S.shared.db.rooms, r.id = m.roomId) ∧
    (∀ r ∈ S.shared.db.rooms,
      ((∃ m ∈ S.shared.db.matches', m.roomId = r.id) ↔ r.status ≠ .lobby) ∧
      (∀ m ∈ S.shared.db.matches', m.roomId = r.id → r.status = m.status) ∧
      (statuses S.shared.wal r.id).IsChain (fun a b => a.follows b = true) ∧
      (statuses S.shared.wal r.id).getLast? = some r.status) ∧
    statuses S.shared.wal 1 = [.lobby, .running, .paused, .running, .completed] := by
  have hSeed : Demo.seed.Lobby := ⟨by decide, by decide⟩
  have hRun : (service.run (initial Demo.seed) Demo.controls).any
      (fun S => statuses S.shared.wal 1 = [.lobby, .running, .paused, .running, .completed]) = true := by
    decide +kernel
  obtain ⟨S, hReach, hStatuses⟩ := Machine.Reach.exists_of_run hRun
  obtain ⟨hHosted, hRooms⟩ := status_agrees hSeed hReach
  exact ⟨S, hReach, hHosted, hRooms, of_decide_eq_true hStatuses⟩

end LiveQuiz
