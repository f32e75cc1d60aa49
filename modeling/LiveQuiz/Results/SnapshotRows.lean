import LiveQuiz.Lobby.Walk

/-! # Snapshots and answers come from the tables

Whatever the requests on a room do to each other, a cached snapshot lists committed
participants only, each once and in the order they joined, and what a request has answered
is in the tables.
-/

namespace LiveQuiz.Lobby

open Coroutine

set_option autoImplicit false

section

variable {O : Rooms.Outside} {n : Nat} {w : World} {quizzes : List Rooms.Quiz} {S : SysState}

theorem sound (O : Rooms.Outside) : Sound (lobby O) (contract O.lower) where
  rely_trans _ _ _ _ := Rely.trans
  rely_refl := Rely.refl
  post_rely _ _ _ _ _ := Post.rely
  exec w job pid n o d out hInv hReq hPid hExec := by
    have hSpawned := exec_spawned hExec
    rw [hSpawned]
    refine ⟨hInv.exec hPid hReq hExec, fun q _ hq => ⟨exec_own hExec hq, exec_later hExec (hInv.moves pid)⟩, ?_⟩
    rintro t' ⟨⟩
  env w n e out hInv hEnv := by
    obtain ⟨hLater, hOut⟩ := hInv.env hEnv
    obtain ⟨-, -, hTx, hPending, hStage, -, -⟩ := env_rooms (n := n) hEnv
    refine ⟨?_, fun q _ => ⟨⟨?_, ?_, ?_⟩, hLater⟩, fun t' _ => ?_⟩
    · exact ⟨{ hOut.keyed with unused := fun q hq => hOut.keyed.unused q (by omega) }, hOut.cached,
        hOut.started, hOut.moves⟩
    · rw [hTx]
    · rw [hPending]
    · rw [hStage]
    · refine wp_mono (walk_jobBody t' out.1 ⟨(hOut.keyed.unused n le_rfl).2, trivial⟩) fun r v hr => ?_
      rintro ret rfl
      exact hr

theorem initial_inv (quizzes : List Rooms.Quiz) : Inv O.lower 0 (initial quizzes).shared := by
  refine ⟨⟨List.Pairwise.nil, fun q a ha => ?_, fun q => List.Pairwise.nil,
    fun p q _ a ha => ?_, fun q _ => ⟨rfl, rfl⟩⟩, fun c s hs => ?_, fun m hm => ?_, fun q i st hMem => ?_⟩
  · cases ha
  · cases ha
  · cases hs
  · cases hm
  · cases hMem

theorem kept (h : (lobby O).Reach (fun _ _ => True) (initial quizzes) S) :
    Kept (lobby O) (contract O.lower) S := by
  have hStart : Kept (lobby O) (contract O.lower) (initial quizzes) :=
    ⟨initial_inv quizzes, fun pid p hp => by cases hp⟩
  exact (sound O).kept hStart h

theorem roster_nodup (h : Keyed O.lower n w) (i : Id) :
    ((w.roster i).map (·.1)).Nodup ∧ ((w.roster i).map fun e => O.lower e.2.1).Nodup := by
  have hParts : w.room.participants.Pairwise fun a b =>
      (Rooms.Write.participant a).collides O.lower (.participant b) = false := by
    have hLeft := (List.pairwise_append.mp (List.pairwise_append.mp (List.pairwise_append.mp h.stored).1).1).2.1
    exact List.pairwise_map.mp hLeft
  have hRoom : (sortBy Rooms.Participant.joinedAt (w.room.participants.filter (·.roomId = i))).Pairwise
      fun a b => a.id ≠ b.id ∧ O.lower a.nickname ≠ O.lower b.nickname := by
    refine ((List.perm_insertionSort _ _).pairwise_iff fun hab => ⟨hab.1.symm, hab.2.symm⟩).mpr ?_
    refine List.Pairwise.imp_of_mem (fun {a b} ha hb hab => ?_) (hParts.filter _)
    have hA : a.roomId = i := by simpa using (List.mem_filter.mp ha).2
    have hB : b.roomId = i := by simpa using (List.mem_filter.mp hb).2
    simpa [Rooms.Write.collides, hA, hB] using hab
  constructor
  · rw [World.roster, List.map_map, List.Nodup, List.pairwise_map]
    exact hRoom.imp fun h => h.1
  · rw [World.roster, List.map_map, List.Nodup, List.pairwise_map]
    exact hRoom.imp fun h => h.2

/-- A cached snapshot lists participants of its room that are committed, in the order they
joined, none twice and no nickname twice; it is out of the lobby only if its room is, and its
match is the match of the room. -/
theorem cached_snapshot_committed (h : (lobby O).Reach (fun _ _ => True) (initial quizzes) S) {code : String}
    {s : Rooms.Snapshot} (hCached : S.shared.room.snapshot code = some s) :
    S.shared.Shows code s ∧ (s.participants.map (·.1)).Nodup ∧
      (s.participants.map fun e => O.lower e.2.1).Nodup := by
  have hInv := (kept h).inv
  have hShows := hInv.cached code s hCached
  obtain ⟨-, i, hPictures⟩ := id hShows
  obtain ⟨hIds, hNames⟩ := roster_nodup hInv.keyed i
  exact ⟨hShows, hIds.sublist (hPictures.listed.map _), hNames.sublist (hPictures.listed.map _)⟩

namespace SnapshotDemo

def outside : Rooms.Outside := ⟨fun _ => [], fun _ _ id _ => toString id, id, "duplicate key"⟩

/-- `k` calls of one program, with ids counted up from `value`. -/
def calls (pid k value : Nat) : List SysLabel :=
  (List.range k).map fun i => .op pid { value := value + i, text := "R2D2C3" }

def join (nickname : String) : SysLabel :=
  .env (.request (.room (.joinRoom "R2D2C3" nickname "10.0.0.1" none)))

/-- Ann and Bob join at once in a room for two, and the match starts. -/
def labels : List SysLabel :=
  [.env (.request (.room (.createRoom ⟨7, "host"⟩ ⟨5, 2, []⟩)))] ++ calls 0 12 100 ++
    [join "ann", join "bob"] ++ calls 2 7 300 ++ calls 1 12 200 ++ calls 2 5 307 ++
    [.env (.request (.startMatch 7 "R2D2C3"))] ++ calls 3 8 400

def cached : Rooms.Snapshot :=
  ⟨"R2D2C3", .running, 2, [(203, "ann", false), (303, "bob", false)], some (402, 401, .running)⟩

/-- The request and the answer of a program that has returned. -/
def answered (S : SysState) (pid : Nat) : Option (Job × Ret) :=
  match S.procs[pid]? with
  | some ⟨job, .done (.ok ret)⟩ => some (job, ret)
  | _ => none

end SnapshotDemo

theorem cached_snapshot_committed_running : ∃ S : SysState,
    S.shared.room.snapshot "R2D2C3" = some SnapshotDemo.cached ∧
    S.shared.Shows "R2D2C3" SnapshotDemo.cached := by
  have hRun : ((lobby SnapshotDemo.outside).run (initial [⟨5, 7, true⟩]) SnapshotDemo.labels).any
      (fun S => S.shared.room.snapshot "R2D2C3" = some SnapshotDemo.cached) = true := by
    decide +kernel
  obtain ⟨S, hReach, hS⟩ := Machine.Reach.exists_of_run hRun
  have hCached := of_decide_eq_true hS
  exact ⟨S, hCached, (cached_snapshot_committed hReach hCached).1⟩

theorem answered_eq {pid : Nat} {job : Job} {ret : Ret} (h : SnapshotDemo.answered S pid = some (job, ret)) :
    S.procs[pid]? = some ⟨job, .done (.ok ret)⟩ := by
  unfold SnapshotDemo.answered at h
  split at h
  next hProc =>
    cases h
    exact hProc
  · cases h

/-- What a request has answered is in the tables, then and in every later state. -/
theorem answers_committed (h : (lobby O).Reach (fun _ _ => True) (initial quizzes) S) {pid : Nat} {job : Job}
    {ret : Ret} (hDone : S.procs[pid]? = some ⟨job, .done (.ok ret)⟩) : Acknowledges S.shared job ret :=
  (kept h).post hDone ret rfl

/-- Bob's answer names a participant of the room. -/
theorem answers_committed_bob : ∃ (S : SysState) (r : Rooms.JoinResponse),
    SnapshotDemo.answered S 2 = some (.room (.joinRoom "R2D2C3" "bob" "10.0.0.1" none), .room (.joined r)) ∧
    (r.participantId, "bob", false) ∈ S.shared.roster r.roomId := by
  have hRun : ((lobby SnapshotDemo.outside).run (initial [⟨5, 7, true⟩]) SnapshotDemo.labels).any (fun S =>
      SnapshotDemo.answered S 2 = some (.room (.joinRoom "R2D2C3" "bob" "10.0.0.1" none),
        .room (.joined ⟨303, 102, "R2D2C3", "bob", "303", Rooms.wsUrl "R2D2C3" "303"⟩))) = true := by
    decide +kernel
  obtain ⟨S, hReach, hS⟩ := Machine.Reach.exists_of_run hRun
  have hAnswer := of_decide_eq_true hS
  have hAck := answers_committed hReach (answered_eq hAnswer)
  exact ⟨S, _, hAnswer, hAck.2.2.2⟩

end

end LiveQuiz.Lobby
