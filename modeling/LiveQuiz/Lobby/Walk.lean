import LiveQuiz.Lobby.Contract
import LiveQuiz.Lib.Triple

/-! # Walking the requests on a room

Every request is walked down on what it has flushed and on facts about the tables that no
other request takes away.
-/

namespace LiveQuiz.Lobby

open Coroutine

set_option autoImplicit false

def Fact (P : World → Prop) : Prop := ∀ w v, Later w v → P w → P v

def Flushed (pid : Nat) (R : Rooms.Write → Prop) (w : World) : Prop := ∃ wr ∈ w.room.tx pid, R wr

section

variable {α β : Type} {O : Rooms.Outside} {pid n : Nat} {job : Job} {P P' F : World → Prop}
  {Q Q' : α → World → Prop} {w v : World} {d : Rooms.Decision}

def Walk (O : Rooms.Outside) (pid : Nat) (job : Job) (P : World → Prop) (p : Coro α)
    (Q : α → World → Prop) : Prop :=
  Triple (lobby O) (contract O.lower) id pid job P p Q fun _ => True

namespace Walk

theorem pure {a : α} (h : ∀ w, P w → Q a w) : Walk O pid job P (Pure.pure a) Q := Triple.pure h

theorem raise {e : Exn} : Walk O pid job P (throw e) Q := Triple.raise fun _ _ => trivial

theorem bind {p : Coro α} {f : α → Coro β} {U : β → World → Prop} (hp : Walk O pid job P p Q)
    (hf : ∀ a, Walk O pid job (Q a) (f a) U) : Walk O pid job P (p >>= f) U :=
  Triple.bind hp hf

theorem weaken {p : Coro α} (hp : Walk O pid job P p Q) (hP : ∀ w, P' w → P w)
    (hQ : ∀ a w, Q a w → Q' a w) : Walk O pid job P' p Q' :=
  Triple.weaken hp hP hQ fun _ h => h

theorem room_bind {p : Rooms.Coro α} {f : α → Rooms.Coro β} {U : β → World → Prop}
    (hp : Walk O pid job P (lift p) Q) (hf : ∀ a, Walk O pid job (Q a) (lift (f a)) U) :
    Walk O pid job P (lift (p >>= f)) U := by
  change Walk O pid job P (lift (p.bind f)) U
  rw [lift_bind]
  exact hp.bind hf

theorem call {o : Op} {Q : o.Res → World → Prop} (hStable : ∀ w v, Rely pid w v → P w → P v)
    (h : ∀ n w, Inv O.lower n w → P w → Req pid w o ∧ ∀ d out a, Later w out.shared →
      perform O w job pid n o d = some out → out.result = .ok a → Q a out.shared) :
    Walk O pid job P (ask o) Q := by
  intro w hw
  refine wp_perform fun v n _ hRely hInv => ?_
  obtain ⟨hReq, hNext⟩ := h n v hInv (hStable w v hRely hw)
  refine ⟨hReq, fun d out hExec => ?_⟩
  have hLater : Later v out.shared := exec_later hExec (hInv.moves pid)
  cases hRes : out.result with
  | ok a => exact hNext d out a hLater (exec_ok hExec hRes).2 hRes
  | error e => trivial

theorem free {o : Op} {Q : o.Res → World → Prop} (hP : Fact P) (hReq : ∀ w, Req pid w o)
    (h : ∀ a w, P w → Q a w) : Walk O pid job P (ask o) Q :=
  call (fun w v hRely => hP w v hRely.2) fun _ w _ hw =>
    ⟨hReq w, fun _ out a hLater _ _ => h a out.shared (hP w out.shared hLater hw)⟩

theorem inSession {p : Coro α} (h : Walk O pid job P p Q) : Walk O pid job P (inSession p) Q := by
  refine Triple.session h ?_
  exact free (fun _ _ _ _ => trivial) (fun _ => trivial) fun _ _ _ => trivial

theorem room_inSession {p : Rooms.Coro α} (h : Walk O pid job P (lift p) Q) :
    Walk O pid job P (lift (Rooms.inSession p)) Q := by
  rw [Rooms.inSession, Prog.session, lift_handle]
  refine Triple.handle h fun e => ?_
  refine room_bind (Q := fun _ _ => True) ?_ fun _ => raise
  exact free (fun _ _ _ _ => trivial) (fun _ => trivial) fun _ _ _ => trivial

theorem refused {c : Prop} [Decidable c] {text : String} {status : Nat} {message : String}
    {details : List (String × String)} {f : β → Coro α} {p : Coro α} (h : ¬c → Walk O pid job P p Q) :
    Walk O pid job P (if c then LiveQuiz.raise text status message details >>= f else p) Q := by
  split
  · exact raise
  next hNot => exact h hNot

theorem room_refused {c : Prop} [Decidable c] {text : String} {status : Nat} {message : String}
    {details : List (String × String)} {f : β → Rooms.Coro α} {p : Rooms.Coro α}
    (h : ¬c → Walk O pid job P (lift p) Q) :
    Walk O pid job P (lift (if c then LiveQuiz.raise text status message details >>= f else p)) Q := by
  split
  · exact raise
  next hNot => exact h hNot

end Walk

theorem Flushed.rely {R : Rooms.Write → Prop} (h : Flushed pid R w) (hRely : Rely pid w v) : Flushed pid R v := by
  rw [Flushed, hRely.1.tx]
  exact h

theorem Flushed.perform {R : Rooms.Write → Prop} {o : Rooms.Op} {a : Rooms.Answer o} (h : Flushed pid R w)
    (hCommit : o ≠ .commit) (hRollback : o ≠ .rollback) (ha : Rooms.perform O w.room pid n o d = some a) :
    ∃ wr ∈ a.shared.tx pid, R wr := by
  cases o with
  | flush wr =>
    obtain rfl | ⟨-, rfl⟩ := Rooms.flushWrite_cases ha
    · exact h
    · obtain ⟨wr', hMem, hR⟩ := h
      refine ⟨wr', ?_, hR⟩
      change wr' ∈ Function.update w.room.tx pid (w.room.tx pid ++ [w.room.stamp d.age wr]) pid
      rw [Function.update_self]
      exact List.mem_append_left _ hMem
  | countAdmit c m =>
    cases ha
    obtain hEq | ⟨-, hEq⟩ := Rooms.admit_cases w.room pid c m <;> rw [hEq] <;> exact h
  | countRelease c =>
    cases ha
    unfold Rooms.release
    split <;> exact h
  | commit => exact absurd rfl hCommit
  | rollback => exact absurd rfl hRollback
  | _ =>
    cases ha
    exact h

namespace Walk

theorem within {R : Rooms.Write → Prop} {o : Rooms.Op} (hF : Fact F) (hCommit : o ≠ .commit)
    (hRollback : o ≠ .rollback) (hReq : ∀ w, Req pid w (.room o)) :
    Walk O pid job (fun w => F w ∧ Flushed pid R w) (lift (Rooms.ask o))
      (fun _ w => F w ∧ Flushed pid R w) := by
  refine call (o := .room o) (fun w v hRely hw => ⟨hF w v hRely.2 hw.1, hw.2.rely hRely⟩) fun n w _ hw => ?_
  refine ⟨hReq w, fun d out a hLater hPerform _ => ⟨hF _ _ hLater hw.1, ?_⟩⟩
  obtain ⟨b, hb, rfl⟩ := Option.map_eq_some_iff.mp hPerform
  exact hw.2.perform hCommit hRollback hb

theorem flush {wr : Rooms.Write} {R : Rooms.Write → Prop} (hF : Fact F)
    (hR : ∀ (w : Rooms.World) (age : Nat), R (w.stamp age wr)) :
    Walk O pid job F (lift (Rooms.tryFlush wr)) (fun b w => F w ∧ (b = true → Flushed pid R w)) := by
  rw [Rooms.tryFlush, lift_handle]
  intro w hw
  refine wp_handle ?_
  change wp _ _ _ _ (lift ((Rooms.ask (.flush wr)).bind fun _ => Pure.pure true)) _ w
  rw [lift_bind]
  refine wp_bind (wp_perform fun v n _ hRely hInv => ⟨trivial, fun d out hExec => ?_⟩)
  have hOut : F out.shared := hF _ _ (hRely.2.trans (exec_later hExec (hInv.moves pid))) hw
  cases hRes : out.result with
  | error e =>
    cases e with
    | integrity => exact ⟨hOut, Bool.noConfusion⟩
    | _ => trivial
  | ok a =>
    refine ⟨hOut, fun _ => ?_⟩
    obtain ⟨b, hb, rfl⟩ := Option.map_eq_some_iff.mp (exec_ok hExec hRes).2
    obtain rfl | ⟨-, rfl⟩ := Rooms.flushWrite_cases hb
    · cases hRes
    · refine ⟨v.room.stamp d.age wr, ?_, hR v.room d.age⟩
      change _ ∈ Function.update v.room.tx pid (v.room.tx pid ++ [v.room.stamp d.age wr]) pid
      rw [Function.update_self]
      exact List.mem_append_right _ List.mem_cons_self

end Walk

theorem Fact.and {F G : World → Prop} (hF : Fact F) (hG : Fact G) : Fact fun w => F w ∧ G w :=
  fun w v hLater h => ⟨hF w v hLater h.1, hG w v hLater h.2⟩

theorem fact_true : Fact fun _ => True := fun _ _ _ _ => trivial

theorem fact_houses {i : Id} {code : String} : Fact fun w => w.Houses i code :=
  fun _ _ hLater h => h.later hLater

theorem fact_shows (code : String) (s : Rooms.Snapshot) : Fact fun w => w.Shows code s :=
  fun _ _ hLater h => h.later hLater

def Read (code : String) (room : Rooms.Room) (w : World) : Prop :=
  room.code = code ∧ w.Houses room.id code ∧ (room.status = .lobby ∨ w.Gone room.id)

theorem fact_read (code : String) (room : Rooms.Room) : Fact (Read code room) :=
  fun _ _ hLater h => ⟨h.1, h.2.1.later hLater, h.2.2.imp_right fun hGone => hGone.later hLater⟩

theorem read_of_find {code : String} {room : Rooms.Room}
    (h : w.room.rooms.find? (·.code = code) = some room) : Read code room w := by
  have hCode : room.code = code := by simpa using List.find?_some h
  have hMem := List.mem_of_find?_eq_some h
  refine ⟨hCode, ⟨room, hMem, rfl, hCode⟩, ?_⟩
  by_cases hLobby : room.status = .lobby
  · exact .inl hLobby
  · exact .inr ⟨room, hMem, rfl, hLobby⟩

namespace Walk

theorem getByCode {code : String} :
    Walk O pid job (fun _ => True) (lift (Rooms.ask (.getByCode code)))
      (fun row w => ∀ room, row = some room → Read code room w) := by
  refine call (o := .room (.getByCode code)) (fun _ _ _ _ => trivial) fun n w _ _ => ⟨trivial, ?_⟩
  intro d out a hLater hPerform hRes room hRow
  cases hPerform
  cases hRes
  exact fact_read _ _ _ _ hLater (read_of_find hRow)

theorem snapshotOf (code : String) (room : Rooms.Room) (hF : Fact F) :
    Walk O pid job (fun w => F w ∧ Read code room w) (lift (Rooms.snapshotOf room))
      (fun a w => F w ∧ w.Shows code a.1) := by
  have hFact := hF.and (fact_read code room)
  refine room_bind (Q := fun rows w => F w ∧ w.Shows code
    ⟨room.code, room.status, rows.length, rows.map Rooms.participantPayload, none⟩) ?_
    fun rows => pure fun w hw => hw
  refine call (o := .room (.activeParticipants room.id)) (fun w v hRely => hFact w v hRely.2) fun n w _ hw => ?_
  refine ⟨trivial, fun d out a hLater hPerform hRes => ⟨hF _ _ hLater hw.1, ?_⟩⟩
  cases hPerform
  cases hRes
  obtain ⟨-, hCode, hHouses, hStatus⟩ := hw
  refine World.Shows.later ⟨hCode, room.id, ?_, ?_, ?_, hStatus, ?_⟩ hLater
  · rw [hCode]
    exact hHouses
  · rw [List.length_map]
  · refine (sortBy_sublist ?_).map _
    rw [Rooms.World.active]
    exact List.monotone_filter_right _ fun p hp => by simp_all [Rooms.World.isActive]
  · intro m hm
    cases hm

theorem write {code : String} {s : Rooms.Snapshot} (hF : Fact F) :
    Walk O pid job (fun w => F w ∧ w.Shows code s) (lift (Rooms.ask (.writeSnapshot code s)))
      (fun _ w => F w ∧ w.Shows code s) := by
  have hFact := hF.and (fact_shows code s)
  refine call (o := .room (.writeSnapshot code s)) (fun w v hRely => hFact w v hRely.2) fun n w _ hw => ?_
  exact ⟨hw.2, fun d out a hLater _ _ => hFact w _ hLater hw⟩

theorem commit_room {room : Rooms.Room} (hF : Fact F) :
    Walk O pid job (fun w => F w ∧ Flushed pid (· = .room room) w) (lift (Rooms.ask .commit))
      (fun _ w => F w ∧ w.Houses room.id room.code) := by
  refine call (o := .room .commit) (fun w v hRely hw => ⟨hF w v hRely.2 hw.1, hw.2.rely hRely⟩) fun n w _ hw => ?_
  refine ⟨trivial, fun d out a hLater hPerform _ => ⟨hF _ _ hLater hw.1, ?_⟩⟩
  cases hPerform
  obtain ⟨-, wr, hMem, rfl⟩ := hw
  refine ⟨room, ?_, rfl, rfl⟩
  change room ∈ (w.room.commit pid).rooms
  rw [(Rooms.committed w.room pid).rooms]
  exact List.mem_append_right _ (List.mem_filterMap.mpr ⟨_, hMem, rfl⟩)

theorem commit_participant {i roomId : Id} {nickname : String} (hF : Fact F) :
    Walk O pid job (fun w => F w ∧ Flushed pid (fun wr => ∃ p, wr = .participant p ∧ p.id = i ∧
        p.roomId = roomId ∧ p.nickname = nickname) w) (lift (Rooms.ask .commit))
      (fun _ w => F w ∧ (i, nickname, false) ∈ w.roster roomId) := by
  refine call (o := .room .commit) (fun w v hRely hw => ⟨hF w v hRely.2 hw.1, hw.2.rely hRely⟩) fun n w _ hw => ?_
  refine ⟨trivial, fun d out a hLater hPerform _ => ⟨hF _ _ hLater hw.1, ?_⟩⟩
  cases hPerform
  obtain ⟨-, wr, hMem, p, rfl, rfl, rfl, rfl⟩ := hw
  refine List.mem_map.mpr ⟨p, mem_sortBy.mpr (List.mem_filter.mpr ⟨?_, by simp⟩), rfl⟩
  change p ∈ (w.room.commit pid).participants
  rw [(Rooms.committed w.room pid).participants]
  exact List.mem_append_right _ (List.mem_filterMap.mpr ⟨_, hMem, rfl⟩)

end Walk

theorem walk_next {o : Rooms.Op} {f : o.Res → Rooms.Coro β} {U : β → World → Prop} (hP : Fact P)
    (hReq : ∀ w, Req pid w (.room o)) (h : ∀ a, Walk O pid job P (lift (f a)) U) :
    Walk O pid job P (lift (Rooms.ask o >>= f)) U :=
  Walk.room_bind (Walk.free (o := .room o) hP hReq fun _ _ h => h) h

theorem walk_within {R : Rooms.Write → Prop} {o : Rooms.Op} {f : o.Res → Rooms.Coro β}
    {U : β → World → Prop} (hF : Fact F) (hCommit : o ≠ .commit) (hRollback : o ≠ .rollback)
    (hReq : ∀ w, Req pid w (.room o))
    (h : ∀ a, Walk O pid job (fun w => F w ∧ Flushed pid R w) (lift (f a)) U) :
    Walk O pid job (fun w => F w ∧ Flushed pid R w) (lift (Rooms.ask o >>= f)) U :=
  Walk.room_bind (Walk.within hF hCommit hRollback hReq) h

theorem walk_allocate {host : Rooms.User} {quiz : Rooms.Quiz} {payload : Rooms.RoomCreate} {k : Nat} :
    Walk O pid job (fun _ => True) (lift (Rooms.allocate host quiz payload k))
      (fun r w => ∀ room, r = some room → room.status = .lobby ∧ Flushed pid (· = .room room) w) := by
  induction k with
  | zero => exact Walk.pure fun w _ room hRoom => by cases hRoom
  | succ k ih =>
    refine walk_next fact_true (fun _ => trivial) fun candidate => ?_
    refine walk_next fact_true (fun _ => trivial) fun id => ?_
    refine Walk.room_bind (Walk.flush (R := (· = .room ⟨id, candidate, host.id, quiz.id, .lobby,
      payload.maxPlayers, payload.settings⟩)) fact_true fun _ _ => rfl) fun fits => ?_
    cases fits with
    | true =>
      refine Walk.pure fun w hw room hRoom => ?_
      cases hRoom
      exact ⟨rfl, hw.2 rfl⟩
    | false => exact Walk.weaken ih (fun _ _ => trivial) fun _ _ h => h

theorem walk_createRoom {host : Rooms.User} {payload : Rooms.RoomCreate} :
    Walk O pid job (fun _ => True) (lift (Rooms.createRoom O host payload))
      (fun a w => w.Houses a.1.id a.1.code) := by
  refine walk_next fact_true (fun _ => trivial) fun quiz => ?_
  split
  case h_2 => exact Walk.raise
  refine Walk.room_refused fun _ => Walk.room_refused fun _ => ?_
  refine Walk.room_bind walk_allocate fun row => ?_
  split
  case h_2 => exact Walk.raise
  next room =>
  have hLobby : Fact fun _ => room.status = .lobby := fun _ _ _ h => h
  refine Walk.weaken (P := fun w => room.status = .lobby ∧ Flushed pid (· = .room room) w) ?_
    (fun w hw => hw room rfl) fun _ _ h => h
  refine walk_within hLobby Rooms.Op.noConfusion Rooms.Op.noConfusion (fun _ => trivial) fun eventId => ?_
  refine walk_within hLobby Rooms.Op.noConfusion Rooms.Op.noConfusion (fun _ => trivial) fun now => ?_
  refine walk_within hLobby Rooms.Op.noConfusion Rooms.Op.noConfusion (fun _ => trivial) fun _ => ?_
  refine Walk.room_bind (Q := fun _ w => room.status = .lobby ∧ w.Houses room.id room.code)
    (Walk.commit_room hLobby) fun _ => ?_
  have hHouses : Fact fun w => room.status = .lobby ∧ w.Houses room.id room.code := hLobby.and fact_houses
  refine walk_next hHouses (fun _ => trivial) fun _ => ?_
  refine Walk.room_bind (Walk.weaken (Walk.snapshotOf room.code room fact_houses)
    (fun w hw => ⟨hw.2, rfl, hw.2, .inl hw.1⟩) fun _ _ h => h) fun a => ?_
  refine Walk.room_bind (Walk.write fact_houses) fun _ => ?_
  refine walk_next (fact_houses.and (fact_shows _ _)) (fun _ => trivial) fun issuedAt => ?_
  exact Walk.pure fun w hw => hw.1

theorem walk_autoFlag {R : Rooms.Write → Prop} {room : Rooms.Room} {userId : Option Id}
    {flags : List Rooms.Flag} (hF : Fact F) :
    Walk O pid job (fun w => F w ∧ Flushed pid R w) (lift (Rooms.autoFlag room userId flags))
      (fun _ w => F w ∧ Flushed pid R w) := by
  induction flags with
  | nil => exact Walk.pure fun _ h => h
  | cons flag flags ih =>
    refine walk_within hF Rooms.Op.noConfusion Rooms.Op.noConfusion (fun _ => trivial) fun id => ?_
    refine walk_within hF Rooms.Op.noConfusion Rooms.Op.noConfusion (fun _ => trivial) fun _ => ?_
    refine walk_within hF Rooms.Op.noConfusion Rooms.Op.noConfusion (fun _ => trivial) fun eventId => ?_
    refine walk_within hF Rooms.Op.noConfusion Rooms.Op.noConfusion (fun _ => trivial) fun now => ?_
    exact walk_within hF Rooms.Op.noConfusion Rooms.Op.noConfusion (fun _ => trivial) fun _ => ih

theorem walk_joinable {code ip : String} :
    Walk O pid job (fun _ => True) (lift (Rooms.joinable code ip)) (fun room w => Read code room w) := by
  refine walk_next fact_true (fun _ => trivial) fun rate => ?_
  refine Walk.room_refused fun _ => ?_
  refine Walk.room_bind Walk.getByCode fun row => ?_
  split
  case h_2 => exact Walk.raise
  next room => exact Walk.room_refused fun _ => Walk.pure fun w hw => hw room rfl

theorem walk_joinRoom {code nickname ip : String} {user : Option Rooms.User} :
    Walk O pid job (fun _ => True) (lift (Rooms.joinRoom O code nickname ip user))
      (fun r w => r.code = code ∧ r.nickname = nickname ∧ w.Houses r.roomId code ∧
        (r.participantId, nickname, false) ∈ w.roster r.roomId) := by
  refine Walk.room_bind walk_joinable fun room => ?_
  have hRead := fact_read code room
  refine walk_next hRead (fun _ => trivial) fun count => Walk.room_refused fun _ => ?_
  refine walk_next hRead (fun _ => trivial) fun id => ?_
  refine Walk.room_bind (Walk.flush (R := fun wr => ∃ p, wr = .participant p ∧ p.id = id ∧
    p.roomId = room.id ∧ p.nickname = nickname) hRead fun u _ => ⟨_, rfl, rfl, rfl, rfl⟩) fun fits => ?_
  cases fits with
  | false =>
    refine Walk.weaken (P := fun _ => True) ?_ (fun _ _ => trivial) fun _ _ h => h
    refine walk_next fact_true (fun _ => trivial) fun _ => ?_
    exact walk_next fact_true (fun _ => trivial) fun _ => Walk.raise
  | true =>
    refine Walk.weaken (P := fun w => Read code room w ∧ Flushed pid _ w) ?_ (fun w hw => ⟨hw.1, hw.2 rfl⟩)
      fun _ _ h => h
    refine walk_within hRead Rooms.Op.noConfusion Rooms.Op.noConfusion (fun _ => trivial) fun eventId => ?_
    refine walk_within hRead Rooms.Op.noConfusion Rooms.Op.noConfusion (fun _ => trivial) fun now => ?_
    refine walk_within hRead Rooms.Op.noConfusion Rooms.Op.noConfusion (fun _ => trivial) fun _ => ?_
    refine Walk.room_bind (walk_autoFlag hRead) fun _ => ?_
    refine Walk.room_bind (Walk.commit_participant hRead) fun _ => ?_
    have hListed : Fact fun w => Read code room w ∧ (id, nickname, false) ∈ w.roster room.id :=
      hRead.and fun w v hLater h => (hLater.roster room.id).subset h
    refine Walk.room_bind (Walk.weaken (Walk.snapshotOf code room hListed)
      (fun w hw => ⟨hw, hw.1⟩) fun _ _ h => h) fun a => ?_
    refine Walk.room_bind (Walk.write hListed) fun _ => ?_
    refine walk_next (hListed.and (fact_shows _ _)) (fun _ => trivial) fun issuedAt => ?_
    refine Walk.pure fun w hw => ?_
    obtain ⟨⟨⟨hCode, hHouses, -⟩, hMem⟩, -⟩ := hw
    exact ⟨hCode, rfl, hHouses, hMem⟩

theorem walk_cached {code : String} (hF : Fact F) :
    Walk O pid job F (ask (.room (.readSnapshot code)))
      (fun r w => F w ∧ ∀ s, r = some s → w.Shows code s) := by
  refine Walk.call (o := .room (.readSnapshot code)) (fun w v hRely => hF w v hRely.2) fun n w hInv hw => ?_
  refine ⟨trivial, fun d out a hLater hPerform hRes => ⟨hF w _ hLater hw, fun s hs => ?_⟩⟩
  cases hPerform
  cases hRes
  exact (hInv.cached code s hs).later hLater

theorem walk_buildSnapshot {code : String} :
    Walk O pid job (fun _ => True) (lift (Rooms.buildSnapshot code)) (fun s w => w.Shows code s) := by
  refine Walk.room_bind (walk_cached fact_true) fun cached => ?_
  cases cached with
  | some s => exact Walk.pure fun w hw => hw.2 s rfl
  | none =>
    refine Walk.weaken (P := fun _ => True) ?_ (fun _ _ => trivial) fun _ _ h => h
    refine Walk.room_bind Walk.getByCode fun row => ?_
    split
    case h_2 => exact Walk.raise
    next room =>
    refine Walk.room_bind (Walk.weaken (Walk.snapshotOf code room fact_true)
      (fun w hw => ⟨trivial, hw room rfl⟩) fun _ _ h => h) fun a => ?_
    refine walk_next (fact_true.and (fact_shows _ _)) (fun _ => trivial) fun _ => ?_
    exact Walk.room_bind (Walk.write fact_true) fun _ => Walk.pure fun w hw => hw.2

/-- The statements a host request has flushed, and what else it knows. -/
def Holding (pid : Nat) (ws : List HostWrite) (F : World → Prop) (w : World) : Prop :=
  w.tx pid = ws ∧ F w

variable {ws : List HostWrite}

theorem Holding.rely (hF : Fact F) (h : Holding pid ws F w) (hRely : Rely pid w v) : Holding pid ws F v :=
  ⟨hRely.1.pending.trans h.1, hF w v hRely.2 h.2⟩

def Op.still : Op → Bool
  | .flush _ | .commit | .rollback => false
  | _ => true

theorem perform_still {o : Op} {out : Answer o} (ho : o.still = true)
    (h : perform O w job pid n o d = some out) : out.shared.tx = w.tx := by
  cases o with
  | room o =>
    obtain ⟨a, -, rfl⟩ := Option.map_eq_some_iff.mp h
    exact (observe_room w job pid o a.result).1
  | lockRoom c =>
    obtain ⟨a, ha, rfl⟩ := Option.map_eq_some_iff.mp h
    obtain ⟨-, locks, hEq⟩ := lockRow_eq ha
    rw [hEq]
  | lockRoomById i =>
    obtain ⟨a, ha, rfl⟩ := Option.map_eq_some_iff.mp h
    obtain ⟨-, locks, hEq⟩ := lockRow_eq ha
    rw [hEq]
  | lockMatch i =>
    obtain ⟨a, ha, rfl⟩ := Option.map_eq_some_iff.mp h
    obtain ⟨-, locks, hEq⟩ := lockRow_eq ha
    rw [hEq]
  | flush ws => cases ho
  | commit => cases ho
  | rollback => cases ho
  | _ =>
    cases h
    rfl

theorem walk_still {o : Op} {Q : o.Res → World → Prop} {f : o.Res → Coro β} {U : β → World → Prop}
    (hF : Fact F) (hQ : ∀ a, Fact (Q a)) (ho : o.still = true) (hReq : ∀ w, Req pid w o)
    (h : ∀ n w d out a, Inv O.lower n w → F w → perform O w job pid n o d = some out →
      out.result = .ok a → Q a w)
    (hf : ∀ a, Walk O pid job (Holding pid ws fun w => F w ∧ Q a w) (f a) U) :
    Walk O pid job (Holding pid ws F) (ask o >>= f) U := by
  refine Walk.bind (Walk.call (fun w v hRely hw => hw.rely hF hRely) fun n w hInv hw => ?_) hf
  refine ⟨hReq w, fun d out a hLater hPerform hRes => ⟨?_, hF _ _ hLater hw.2, ?_⟩⟩
  · rw [perform_still ho hPerform]
    exact hw.1
  · exact hQ a _ _ hLater (h n w d out a hInv hw.2 hPerform hRes)

theorem walk_skip {o : Op} {f : o.Res → Coro β} {U : β → World → Prop} (hF : Fact F) (ho : o.still = true)
    (hReq : ∀ w, Req pid w o) (hf : ∀ a, Walk O pid job (Holding pid ws F) (f a) U) :
    Walk O pid job (Holding pid ws F) (ask o >>= f) U :=
  walk_still (Q := fun _ _ => True) hF (fun _ => fact_true) ho hReq (fun _ _ _ _ _ _ _ _ _ => trivial)
    fun a => Walk.weaken (hf a) (fun _ hw => ⟨hw.1, hw.2.1⟩) fun _ _ h => h

theorem walk_flush {ws' : List HostWrite} {f : Unit → Coro β} {U : β → World → Prop} (hF : Fact F)
    (hNot : ∀ i st, .setRoom i st ∈ ws' → st ≠ .lobby)
    (hf : Walk O pid job (Holding pid (ws ++ ws') F) (f ()) U) :
    Walk O pid job (Holding pid ws F) (ask (.flush ws') >>= f) U := by
  refine Walk.bind (Q := fun _ => Holding pid (ws ++ ws') F)
    (Walk.call (fun w v hRely hw => hw.rely hF hRely) fun n w hInv hw => ?_) fun _ => hf
  refine ⟨hNot, fun d out a hLater hPerform hRes => ⟨?_, hF _ _ hLater hw.2⟩⟩
  simp only [perform] at hPerform
  split at hPerform
  · cases hPerform
    cases hRes
  · split at hPerform <;> cases hPerform
    refine (Function.update_self ..).trans ?_
    rw [Transactions.Book.take_tx, hw.1]

theorem walk_commit {f : Unit → Coro β} {U : β → World → Prop} (hF : Fact F)
    (hReq : ∀ w, F w → ∀ row, .insertMatch row ∈ ws →
      ∃ st code, .setRoom row.roomId st ∈ ws ∧ w.Houses row.roomId code)
    (h : ∀ u v, F u → (∀ i st, .setRoom i st ∈ ws → st ≠ .lobby) →
      Later (Transactions.applyAll HostWrite.apply ws u) v → P v)
    (hf : Walk O pid job P (f ()) U) : Walk O pid job (Holding pid ws F) (ask .commit >>= f) U := by
  refine Walk.bind (Q := fun _ => P)
    (Walk.call (fun w v hRely hw => hw.rely hF hRely) fun n w hInv hw => ?_) fun _ => hf
  obtain ⟨rfl, hFacts⟩ := hw
  refine ⟨hReq w hFacts, fun d out a hLater hPerform hRes => ?_⟩
  cases hPerform
  exact h w _ hFacts (hInv.moves pid) (.of_tables rfl rfl rfl)

theorem fact_played {m i : Id} : Fact fun w => w.Played m i := fun _ _ hLater h => h.later hLater

theorem walk_hostedRoom {hostId : Id} {code : String} {f : Rooms.Room → Coro β} {U : β → World → Prop}
    (hf : ∀ room, Walk O pid job (Holding pid [] fun w => w.Houses room.id code) (f room) U) :
    Walk O pid job (Holding pid [] fun _ => True) (hostedRoom hostId code >>= f) U := by
  refine Walk.bind (Q := fun room => Holding pid [] fun w => w.Houses room.id code) ?_ hf
  have hQ : ∀ row : Option Rooms.Room, Fact fun w => ∀ room, row = some room → w.Houses room.id code :=
    fun row w v hLater h room hRow => (h room hRow).later hLater
  refine walk_still fact_true hQ rfl (fun _ => trivial) ?_ fun row => ?_
  · intro n w d out a _ _ hPerform hRes room hRow
    obtain ⟨b, hb, rfl⟩ := Option.map_eq_some_iff.mp hPerform
    obtain ⟨hEq, -⟩ := lockRow_eq hb
    cases hRes
    rw [hEq] at hRow
    exact (read_of_find hRow).2.1
  · split
    case h_2 => exact Walk.raise
    next room => exact Walk.refused fun _ => Walk.pure fun w hw => ⟨hw.1, hw.2.2 room rfl⟩

theorem walk_mark {code : String} {roomId : Id} {s : Rooms.Snapshot}
    {block : Option (Id × Nat × RoomStatus)} {status : RoomStatus} (hF : Fact F)
    (hHouses : ∀ w, F w → w.Houses roomId code) (hGone : ∀ w, F w → w.Gone roomId)
    (hBlock : ∀ w, F w → ∀ m, block = some m → m ∉ s.matchBlock → w.HasMatch m.1 roomId) :
    Walk O pid job (fun w => F w ∧ w.Shows code s)
      (ask (.room (.writeSnapshot code { s with status := status, matchBlock := block }))) (fun _ => F) := by
  have hFact := hF.and (fact_shows code s)
  refine Walk.call (fun w v hRely hw => hFact w v hRely.2 hw) fun n w hInv hw => ?_
  refine ⟨?_, fun d out a hLater _ _ => hF w _ hLater hw.1⟩
  obtain ⟨hFacts, hCode, i, hPictures⟩ := hw
  obtain rfl : i = roomId := hInv.keyed.houses_inj (hCode ▸ hPictures.houses) (hHouses w hFacts)
  refine ⟨hCode, i, hPictures.houses, hPictures.count, hPictures.listed, .inr (hGone w hFacts), fun m hm => ?_⟩
  by_cases hOld : m ∈ s.matchBlock
  · exact hPictures.hasMatch m hOld
  · exact hBlock w hFacts m hm hOld

theorem walk_startMatch {hostId : Id} {code : String} :
    Walk O pid job (Holding pid [] fun _ => True) (startMatch hostId code)
      (fun m w => w.Played m.id m.roomId ∧ w.Houses m.roomId code) := by
  refine Walk.inSession (Walk.bind (Q := fun a w => w.Played a.1.id a.1.roomId ∧ w.Houses a.1.roomId code)
    ?_ fun a => ?_)
  · refine walk_hostedRoom fun room => Walk.refused fun _ => ?_
    refine walk_skip fact_houses rfl (fun _ => trivial) fun count => Walk.refused fun _ => ?_
    refine walk_skip fact_houses rfl (fun _ => trivial) fun id => ?_
    refine walk_flush fact_houses (fun i st hMem => by simp at hMem) ?_
    refine walk_flush fact_houses (fun i st hMem => by simp_all) ?_
    refine walk_commit (P := fun w => w.Played id room.id ∧ w.Houses room.id code) fact_houses ?_ ?_
      (Walk.pure fun w hw => hw)
    · intro w hw row hMem
      simp only [List.nil_append, List.cons_append, List.mem_cons, List.not_mem_nil, or_false,
        HostWrite.insertMatch.injEq, reduceCtorEq] at hMem
      subst hMem
      exact ⟨.running, code, by simp, hw⟩
    · intro u v hu hNot hLater
      refine ⟨⟨?_, ?_⟩, (hu.later (applyAll_later hNot u)).later hLater⟩
      · exact (applyAll_inserted hNot (show HostWrite.insertMatch ⟨id, room.id, .running⟩ ∈ _ by simp)).later
          hLater
      · exact (applyAll_gone hNot (show HostWrite.setRoom room.id .running ∈ _ by simp) hu).later hLater
  · obtain ⟨m, count⟩ := a
    have hFact : Fact fun w => w.Played m.id m.roomId ∧ w.Houses m.roomId code := fact_played.and fact_houses
    refine Walk.bind (Q := fun _ w => w.Played m.id m.roomId ∧ w.Houses m.roomId code) ?_
      fun _ => Walk.pure fun w hw => hw
    refine Walk.bind (walk_cached hFact) fun row => ?_
    split
    case h_2 => exact Walk.pure fun w hw => hw.1
    next cached =>
    refine Walk.weaken (walk_mark (s := cached) hFact (fun w hw => hw.2) (fun w hw => hw.1.2) ?_)
      (fun w hw => ⟨hw.1, hw.2 cached rfl⟩) fun _ _ h => h
    intro w hw b hb _
    cases hb
    exact hw.1.1

theorem not_inserted {row : MatchRow} {m i : Id} {st : RoomStatus} :
    .insertMatch row ∉ [HostWrite.setMatch m st, .setRoom i st] := by
  simp

theorem walk_move {m i : Id} {target : RoomStatus} {f : Unit → Coro β} {U : β → World → Prop} (hF : Fact F)
    (hTarget : target ≠ .lobby) (hf : Walk O pid job F (f ()) U) :
    Walk O pid job (Holding pid [] F)
      (ask (.flush [.setMatch m target, .setRoom i target]) >>= fun _ => ask .commit >>= f) U := by
  refine walk_flush hF (fun j st hMem => ?_) ?_
  · simp only [List.mem_cons, reduceCtorEq, HostWrite.setRoom.injEq, List.not_mem_nil, or_false, false_or]
      at hMem
    rw [hMem.2]
    exact hTarget
  · refine walk_commit hF (fun w _ row hMem => absurd hMem not_inserted) (fun u v hu hNot hLater => ?_) hf
    exact hF _ _ hLater (hF _ _ (applyAll_later hNot u) hu)

theorem walk_moveMatch {hostId : Id} {code : String} {status target : RoomStatus} {message : String}
    (hTarget : target ≠ .lobby) :
    Walk O pid job (Holding pid [] fun _ => True) (moveMatch hostId code status target message)
      (fun m w => w.Played m.id m.roomId ∧ w.Houses m.roomId code) := by
  refine Walk.inSession (walk_hostedRoom fun room => ?_)
  have hQ : ∀ row : Option MatchRow, Fact fun w => ∀ m, row = some m →
      w.Played m.id m.roomId ∧ w.Houses m.roomId code :=
    fun row w v hLater h m hRow => ⟨(h m hRow).1.later hLater, (h m hRow).2.later hLater⟩
  refine walk_still fact_houses hQ rfl (fun _ => trivial) ?_ fun row => ?_
  · intro n w d out a hInv hHouses hPerform hRes m hRow
    cases hPerform
    cases hRes
    have hMem := List.mem_of_find?_eq_some hRow
    have hRoom : m.roomId = room.id := by simpa using List.find?_some hRow
    refine ⟨⟨⟨m, hMem, rfl, rfl⟩, hInv.started m hMem⟩, ?_⟩
    rw [hRoom]
    exact hHouses
  · split
    case h_2 => exact Walk.raise
    next m =>
    have hFact : Fact fun w => w.Played m.id m.roomId ∧ w.Houses m.roomId code := fact_played.and fact_houses
    refine Walk.refused fun _ => Walk.weaken (walk_move hFact hTarget (Walk.pure fun w hw => hw))
      (fun w hw => ⟨hw.1, hw.2.2 m rfl⟩) fun _ _ h => h

theorem walk_endTx {matchId : Id} {hostId : Option Id} :
    Walk O pid job (Holding pid [] fun _ => True) (endTx matchId hostId)
      (fun a w => (a.1.id = matchId ∧ w.Played matchId a.1.roomId) ∧
        ∀ code, a.2 = some code → w.Houses a.1.roomId code) := by
  have hQ : ∀ row : Option MatchRow, Fact fun w => ∀ m, row = some m →
      m.id = matchId ∧ w.Played matchId m.roomId :=
    fun row w v hLater h m hRow => ⟨(h m hRow).1, (h m hRow).2.later hLater⟩
  refine walk_still fact_true hQ rfl (fun _ => trivial) ?_ fun row => ?_
  · intro n w d out a hInv _ hPerform hRes m hRow
    obtain ⟨b, hb, rfl⟩ := Option.map_eq_some_iff.mp hPerform
    obtain ⟨hEq, -⟩ := lockRow_eq hb
    cases hRes
    rw [hEq] at hRow
    have hMem := List.mem_of_find?_eq_some hRow
    have hId : m.id = matchId := by simpa using List.find?_some hRow
    exact ⟨hId, ⟨m, hMem, hId, rfl⟩, hInv.started m hMem⟩
  split
  case h_2 => exact Walk.raise
  next m =>
  have hMatch : Fact fun w => m.id = matchId ∧ w.Played matchId m.roomId :=
    fun w v hLater h => ⟨h.1, h.2.later hLater⟩
  have hQ : ∀ row : Option Rooms.Room, Fact fun w => ∀ room, row = some room → w.Houses m.roomId room.code :=
    fun row w v hLater h room hRow => (h room hRow).later hLater
  refine Walk.weaken (walk_still hMatch hQ rfl (fun _ => trivial) ?_ fun row => ?_)
    (fun w hw => ⟨hw.1, hw.2.2 m rfl⟩) fun _ _ h => h
  · intro n w d out a _ _ hPerform hRes room hRow
    obtain ⟨b, hb, rfl⟩ := Option.map_eq_some_iff.mp hPerform
    obtain ⟨hEq, -⟩ := lockRow_eq hb
    cases hRes
    rw [hEq] at hRow
    have hId : room.id = m.roomId := by simpa using List.find?_some hRow
    exact ⟨room, List.mem_of_find?_eq_some hRow, hId, rfl⟩
  split
  case h_2 => exact Walk.raise
  next room =>
  refine Walk.refused fun _ => ?_
  split
  · refine Walk.weaken (walk_commit hMatch (fun w _ row hMem => (List.not_mem_nil hMem).elim)
      (fun u v hu _ hLater => hMatch _ _ hLater hu) (Walk.pure fun w hw => ⟨hw, by rintro code ⟨⟩⟩))
      (fun w hw => ⟨hw.1, hw.2.1⟩) fun _ _ h => h
  have hBoth : Fact fun w => (m.id = matchId ∧ w.Played matchId m.roomId) ∧ w.Houses m.roomId room.code :=
    hMatch.and fact_houses
  refine Walk.weaken (walk_move hBoth (by simp) (Walk.pure fun w hw => ⟨hw.1, ?_⟩))
    (fun w hw => ⟨hw.1, hw.2.1, hw.2.2 room rfl⟩) fun _ _ h => h
  rintro code ⟨⟩
  exact hw.2

theorem walk_endMatch {matchId : Id} {hostId : Option Id} :
    Walk O pid job (Holding pid [] fun _ => True) (endMatch matchId hostId)
      (fun m w => m.id = matchId ∧ w.Played matchId m.roomId) := by
  refine Walk.inSession (Walk.bind walk_endTx fun a => ?_)
  obtain ⟨m, found⟩ := a
  cases found with
  | none => exact Walk.pure fun w hw => hw.1
  | some code =>
    have hMatch : Fact fun w => m.id = matchId ∧ w.Played matchId m.roomId :=
      fun w v hLater h => ⟨h.1, h.2.later hLater⟩
    have hBoth : Fact fun w => (m.id = matchId ∧ w.Played matchId m.roomId) ∧ w.Houses m.roomId code :=
      hMatch.and fact_houses
    refine Walk.bind (Q := fun _ w => (m.id = matchId ∧ w.Played matchId m.roomId) ∧
      w.Houses m.roomId code) ?_ fun _ => Walk.pure fun w hw => hw.1
    refine Walk.weaken (Walk.bind (walk_cached hBoth) fun row => ?_) (fun w hw => ⟨hw.1, hw.2 code rfl⟩)
      fun _ _ h => h
    split
    case h_2 => exact Walk.pure fun w hw => hw.1
    next cached =>
    refine Walk.weaken (walk_mark (s := cached) hBoth (fun w hw => hw.2) (fun w hw => hw.1.2.2) ?_)
      (fun w hw => ⟨hw.1, hw.2 cached rfl⟩) fun _ _ h => h
    exact fun w hw b hb hNot => absurd hb hNot

theorem walk_mute {roomId userId : Option Id} :
    Walk O pid job (Holding pid [] fun _ => True) (mute roomId userId)
      (fun targets w => ∀ i ∈ targets, w.Kicked i) := by
  refine Walk.inSession (Walk.refused fun _ => ?_)
  have hQ : ∀ targets : List Id, Fact fun w => ∀ i ∈ targets, w.Joined i :=
    fun targets w v hLater h i hi => (h i hi).later hLater
  refine walk_still fact_true hQ rfl (fun _ => trivial) ?_ fun targets => ?_
  · intro n w d out a _ _ hPerform hRes i hi
    cases hPerform
    cases hRes
    obtain ⟨p, hp, rfl⟩ := List.mem_map.mp hi
    exact ⟨p, (List.mem_filter.mp hp).1, rfl⟩
  have hFact := fact_true.and (hQ targets)
  refine walk_flush hFact (fun i st hMem => by simp at hMem) ?_
  refine walk_commit hFact (fun w _ row hMem => by simp at hMem) ?_ (Walk.pure fun w hw => hw)
  intro u v hu hNot hLater i hi
  refine (applyAll_kicked hNot ?_ (hu.2 i hi)).later hLater
  exact List.mem_append_right _ (List.mem_map_of_mem hi)

theorem Walk.map {p : Coro α} {f : α → β} {U : β → World → Prop} (hp : Walk O pid job P p Q)
    (h : ∀ a w, Q a w → U (f a) w) : Walk O pid job P (f <$> p) U :=
  Walk.bind hp fun a => Walk.pure (h a)

theorem walk_roomBody (job : Rooms.Job) :
    Walk O pid (.room job) (fun _ => True) (lift (Rooms.jobBody O job))
      (fun r w => Acknowledges w (.room job) (.room r)) := by
  cases job with
  | createRoom host payload =>
    exact Walk.room_bind (Walk.room_inSession walk_createRoom) fun a => Walk.pure fun w hw => hw
  | joinRoom code nickname ip user =>
    exact Walk.room_bind (Walk.room_inSession walk_joinRoom) fun a => Walk.pure fun w hw => hw
  | buildSnapshot code =>
    exact Walk.room_bind (Walk.room_inSession walk_buildSnapshot) fun a => Walk.pure fun w hw => hw

theorem walk_jobBody (job : Job) :
    Walk O pid job (Holding pid [] fun _ => True) (jobBody O job) (fun ret w => Acknowledges w job ret) := by
  cases job with
  | room job =>
    exact Walk.map (Walk.weaken (walk_roomBody job) (fun _ _ => trivial) fun _ _ h => h) fun _ _ h => h
  | startMatch host code => exact Walk.map walk_startMatch fun _ _ h => h
  | pauseMatch host code => exact Walk.map (walk_moveMatch (by simp)) fun _ _ h => h
  | resumeMatch host code => exact Walk.map (walk_moveMatch (by simp)) fun _ _ h => h
  | endMatch m host => exact Walk.map walk_endMatch fun _ _ h => h
  | mute roomId userId => exact Walk.map walk_mute fun _ _ h => h

end

end LiveQuiz.Lobby
