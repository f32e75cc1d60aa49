import LiveQuiz.Handshake.Service
import LiveQuiz.Lib.Contract
import LiveQuiz.Protocol.Tables

/-! # The contract of the room endpoint

Each socket registers once, announces that, is removed and announces that too, with no
other call between a change of the registry and its announcement. A handshake with a
failed call registers nothing.
-/

namespace LiveQuiz.Handshake

open Coroutine

set_option autoImplicit false

structure Inv (n : Nat) (w : World) : Prop where
  fresh : ∀ q, n ≤ q → w.stage q = .outside ∧ w.failed q = false
  entered : ∀ x ∈ w.admitted, w.stage x.conn ≠ .outside ∧ w.failed x.conn = false
  unique : ∀ x ∈ w.admitted, ∀ y ∈ w.admitted, x.conn = y.conn → x = y
  members : ∀ x, x ∈ w.members ↔ x ∈ w.admitted ∧
    (w.stage x.conn = .registered ∨ w.stage x.conn = .announced)

/-- What the others leave to `pid`. -/
structure Rely (pid : Nat) (w v : World) : Prop where
  stage : v.stage pid = w.stage pid
  failed : v.failed pid = w.failed pid
  admitted : ∀ x, x.conn = pid → (x ∈ v.admitted ↔ x ∈ w.admitted)
  now : w.room.now ≤ v.room.now
  rooms : ∀ code, (∃ r ∈ w.room.rooms, r.code = code) → ∃ r ∈ v.room.rooms, r.code = code

/-- `pid` is a socket of `p` in the room. -/
def Owns (w : World) (pid : Nat) (code : String) (p : Id) : Prop :=
  ∃ x ∈ w.admitted, x.conn = pid ∧ x.room = code ∧ x.participantId = p

def Req (pid : Nat) (w : World) : Op → Prop
  | .connect _ _ _ _ => w.stage pid = .outside ∧ w.failed pid = false
  | .broadcast code (.participantJoined p _ _) => w.stage pid = .registered ∧ Owns w pid code p
  | .broadcast code (.participantLeft p _ _) => w.stage pid = .leaving ∧ Owns w pid code p
  | .broadcast _ _ => False
  | .disconnect _ => w.stage pid = .announced
  | .room (.flush _) | .room .commit | .room .rollback => False
  | _ => w.stage pid ≠ .registered ∧ w.stage pid ≠ .leaving

def contract : Contract World Op Exn Unit Job where
  inv := Inv
  rely := Rely
  req pid _ w o := Req pid w o
  post pid _ _ w := w.stage pid = .outside ∨ w.stage pid = .gone

section

variable {w v : World} {t : Job} {pid n : Nat} {o : Op} {d : Rooms.Decision}

theorem Rely.refl (pid : Nat) (w : World) : Rely pid w w :=
  ⟨rfl, rfl, fun _ _ => .rfl, le_refl _, fun _ h => h⟩

theorem Rely.trans {u : World} (h : Rely pid w v) (h' : Rely pid v u) : Rely pid w u where
  stage := h'.stage.trans h.stage
  failed := h'.failed.trans h.failed
  admitted x hx := (h'.admitted x hx).trans (h.admitted x hx)
  now := h.now.trans h'.now
  rooms code hRoom := h'.rooms code (h.rooms code hRoom)

theorem Owns.rely {code : String} {p : Id} (h : Owns w pid code p) (hRely : Rely pid w v) :
    Owns v pid code p := by
  obtain ⟨x, hx, hConn, hRest⟩ := h
  exact ⟨x, (hRely.admitted x hConn).mpr hx, hConn, hRest⟩

/-- The fields that only the endpoint's own steps change. -/
structure SameSockets (w v : World) : Prop where
  members : v.members = w.members
  admitted : v.admitted = w.admitted
  stage : v.stage = w.stage
  failed : v.failed = w.failed

theorem SameSockets.refl (w : World) : SameSockets w w := ⟨rfl, rfl, rfl, rfl⟩

theorem SameSockets.trans {u : World} (h : SameSockets w v) (h' : SameSockets v u) : SameSockets w u :=
  ⟨h'.members.trans h.members, h'.admitted.trans h.admitted, h'.stage.trans h.stage,
    h'.failed.trans h.failed⟩

def Ages (w v : World) : Prop :=
  w.room.now ≤ v.room.now ∧
    ∀ code, (∃ r ∈ w.room.rooms, r.code = code) → ∃ r ∈ v.room.rooms, r.code = code

theorem Ages.of_eq (h : v.room = w.room) : Ages w v := by
  unfold Ages
  rw [h]
  exact ⟨le_refl _, fun _ h => h⟩

theorem SameSockets.rely (h : SameSockets w v) (hAges : Ages w v) (q : Nat) : Rely q w v where
  stage := by rw [h.stage]
  failed := by rw [h.failed]
  admitted x _ := by rw [h.admitted]
  now := hAges.1
  rooms := hAges.2

theorem SameSockets.inv (h : SameSockets w v) (hInv : Inv n w) : Inv n v where
  fresh q hq := by
    rw [h.stage, h.failed]
    exact hInv.fresh q hq
  entered x hx := by
    rw [h.stage, h.failed]
    rw [h.admitted] at hx
    exact hInv.entered x hx
  unique x hx y hy := by
    rw [h.admitted] at hx hy
    exact hInv.unique x hx y hy
  members x := by
    rw [h.members, h.admitted, h.stage]
    exact hInv.members x

theorem Inv.mono {n' : Nat} (h : Inv n w) (hn : n ≤ n') : Inv n' w :=
  { h with fresh := fun q hq => h.fresh q (hn.trans hq) }

theorem broadcastLocal_same (w : World) (r : Nat) (code : String) (m : ServerMessage) :
    SameSockets w (w.broadcastLocal r code m) ∧ (w.broadcastLocal r code m).room = w.room ∧
      (w.broadcastLocal r code m).sent = w.sent := by
  unfold World.broadcastLocal World.closeKicked
  split <;> exact ⟨⟨rfl, rfl, rfl, rfl⟩, rfl, rfl⟩

theorem broadcastAll_same (w : World) (r : Nat) (code : String) (m : ServerMessage) (fail : Bool) :
    SameSockets w (w.broadcastAll r code m fail) ∧ (w.broadcastAll r code m fail).room = w.room ∧
      (w.broadcastAll r code m fail).sent = w.sent ++ [(code, m)] := by
  unfold World.broadcastAll
  have hBefore : ∀ v : World, SameSockets w v → v.room = w.room → v.sent = w.sent ++ [(code, m)] →
      SameSockets w (v.broadcastLocal r code m) ∧ (v.broadcastLocal r code m).room = w.room ∧
        (v.broadcastLocal r code m).sent = w.sent ++ [(code, m)] := by
    intro v hSame hRoom hSent
    obtain ⟨hSame', hRoom', hSent'⟩ := broadcastLocal_same v r code m
    exact ⟨hSame.trans hSame', hRoom'.trans hRoom, hSent'.trans hSent⟩
  split
  · exact hBefore _ ⟨rfl, rfl, rfl, rfl⟩ rfl rfl
  · exact hBefore _ ⟨rfl, rfl, rfl, rfl⟩ rfl rfl

/-- The calls that leave the registry and its announcements alone. -/
def Op.calm : Op → Bool
  | .connect _ _ _ _ | .broadcast _ _ | .disconnect _ => false
  | .room (.flush _) | .room .commit | .room .rollback => false
  | _ => true

/-- The effect of a calm call. A failure is noted for a socket that is not registered. -/
structure Modest (pid : Nat) (w v : World) : Prop where
  members : v.members = w.members
  admitted : v.admitted = w.admitted
  stage : v.stage = w.stage
  sent : v.sent = w.sent
  failed : v.failed = w.failed ∨
    ((∀ x ∈ w.admitted, x.conn ≠ pid) ∧ v.failed = Function.update w.failed pid true)
  ages : Ages w v

theorem noteFailure_spec (w : World) (pid : Nat) :
    Modest pid w (w.noteFailure pid) ∧
      ((∀ x ∈ w.admitted, x.conn ≠ pid) → (w.noteFailure pid).failed pid = true) := by
  unfold World.noteFailure
  split
  next hAny =>
    refine ⟨⟨rfl, rfl, rfl, rfl, .inl rfl, .of_eq rfl⟩, fun hNone => ?_⟩
    obtain ⟨x, hx, hConn⟩ := List.any_eq_true.mp hAny
    exact absurd (of_decide_eq_true hConn) (hNone x hx)
  next hAny =>
    have hNone : ∀ x ∈ w.admitted, x.conn ≠ pid := by
      intro x hx hConn
      exact hAny (List.any_eq_true.mpr ⟨x, hx, decide_eq_true hConn⟩)
    exact ⟨⟨rfl, rfl, rfl, rfl, .inr ⟨hNone, rfl⟩, .of_eq rfl⟩, fun _ => Function.update_self _ _ _⟩

theorem Modest.trans {u : World} (h : Modest pid w v) (h' : Modest pid v u) : Modest pid w u where
  members := h'.members.trans h.members
  admitted := h'.admitted.trans h.admitted
  stage := h'.stage.trans h.stage
  sent := h'.sent.trans h.sent
  failed := by
    obtain hSame | ⟨hNone, hSet⟩ := h.failed
    · have hFailed := h'.failed
      rw [h.admitted, hSame] at hFailed
      exact hFailed
    · right
      refine ⟨hNone, ?_⟩
      obtain hSame | ⟨-, hSet'⟩ := h'.failed
      · exact hSame.trans hSet
      · rw [hSet', hSet, Function.update_idem]
  ages := ⟨h.ages.1.trans h'.ages.1, fun code hRoom => h'.ages.2 code (h.ages.2 code hRoom)⟩

theorem room_calm {R : Rooms.Outside} {o : Rooms.Op} {a : Rooms.Answer o}
    (ho : (Op.room o).calm = true) (h : Rooms.perform R w.room pid n o d = some a) :
    (∃ v, a.result = .ok v) ∧ Ages w { w with room := a.shared } := by
  cases o with
  | flush _ => cases ho
  | commit => cases ho
  | rollback => cases ho
  | countAdmit c m =>
    cases h
    unfold Rooms.capacityAdmit
    split <;> exact ⟨⟨_, rfl⟩, le_refl _, fun _ h => h⟩
  | countRelease c =>
    cases h
    unfold Rooms.release
    split <;> exact ⟨⟨_, rfl⟩, le_refl _, fun _ h => h⟩
  | _ =>
    cases h
    exact ⟨⟨_, rfl⟩, le_refl _, fun _ h => h⟩

/-- A calm call that is answered; only a hung-up socket makes it raise. -/
theorem perform_calm {R : Rooms.Outside} {out : Answer o} (ho : o.calm = true)
    (h : perform R w t pid n o d = some out) :
    out.spawned = none ∧ Modest pid w out.shared ∧
      ((∃ v, out.result = .ok v) ∧ out.shared.failed = w.failed ∨
        out.result = .error .fault ∧ out.shared = w.noteFailure pid) := by
  cases o with
  | room o =>
    obtain ⟨a, hA, rfl⟩ := Option.map_eq_some_iff.mp h
    obtain ⟨hOk, hAges⟩ := room_calm ho hA
    exact ⟨rfl, ⟨rfl, rfl, rfl, rfl, .inl rfl, hAges⟩, .inl ⟨hOk, rfl⟩⟩
  | send m =>
    simp only [perform] at h
    split at h
    · cases h
      exact ⟨rfl, (noteFailure_spec w pid).1, .inr ⟨rfl, rfl⟩⟩
    · cases h
      exact ⟨rfl, ⟨rfl, rfl, rfl, rfl, .inl rfl, .of_eq rfl⟩, .inl ⟨⟨_, rfl⟩, rfl⟩⟩
  | receive =>
    simp only [perform] at h
    split at h
    · cases h
      exact ⟨rfl, ⟨rfl, rfl, rfl, rfl, .inl rfl, .of_eq rfl⟩, .inl ⟨⟨_, rfl⟩, rfl⟩⟩
    · cases h
  | close code reason =>
    cases h
    exact ⟨rfl, ⟨rfl, rfl, rfl, rfl, .inl rfl, .of_eq rfl⟩, .inl ⟨⟨_, rfl⟩, rfl⟩⟩
  | accept =>
    cases h
    exact ⟨rfl, ⟨rfl, rfl, rfl, rfl, .inl rfl, .of_eq rfl⟩, .inl ⟨⟨_, rfl⟩, rfl⟩⟩
  | connect _ _ _ _ => cases ho
  | broadcast _ _ => cases ho
  | disconnect _ => cases ho

theorem exec_calm {R : Rooms.Outside} {out : Answer o} (ho : o.calm = true)
    (h : exec R w t pid n o d = some out) :
    out.spawned = none ∧ Modest pid w out.shared ∧
      ((∃ v, out.result = .ok v ∧ out.shared.failed = w.failed ∧ perform R w t pid n o d = some out) ∨
        out.result = .error .fault ∧
          ((∀ x ∈ w.admitted, x.conn ≠ pid) → out.shared.failed pid = true)) := by
  have hPerform : ∀ {a : Answer o}, perform R w t pid n o d = some a →
      a.spawned = none ∧ Modest pid w a.shared ∧
        ((∃ v, a.result = .ok v ∧ a.shared.failed = w.failed ∧ perform R w t pid n o d = some a) ∨
          a.result = .error .fault ∧
            ((∀ x ∈ w.admitted, x.conn ≠ pid) → a.shared.failed pid = true)) := by
    intro a hA
    obtain ⟨hSpawned, hModest, ⟨⟨v, hv⟩, hSame⟩ | ⟨hErr, hNote⟩⟩ := perform_calm ho hA
    · exact ⟨hSpawned, hModest, .inl ⟨v, hv, hSame, hA⟩⟩
    · refine ⟨hSpawned, hModest, .inr ⟨hErr, fun hNone => ?_⟩⟩
      rw [hNote]
      exact (noteFailure_spec w pid).2 hNone
  unfold exec at h
  split at h
  case isFalse => exact hPerform h
  case isTrue =>
  split at h
  case h_1 => exact hPerform h
  case h_2 =>
    cases h
    exact ⟨rfl, (noteFailure_spec w pid).1, .inr ⟨rfl, (noteFailure_spec w pid).2⟩⟩
  case h_3 =>
    obtain ⟨a, hA, rfl⟩ := Option.map_eq_some_iff.mp h
    obtain ⟨-, hModest, -⟩ := perform_calm ho hA
    obtain ⟨hNoted, hFails⟩ := noteFailure_spec a.shared pid
    exact ⟨rfl, hModest.trans hNoted,
      .inr ⟨rfl, fun hNone => hFails fun x hx => hNone x (hModest.admitted ▸ hx)⟩⟩

theorem Modest.rely (h : Modest pid w v) {q : Nat} (hq : q ≠ pid) : Rely q w v where
  stage := by rw [h.stage]
  failed := by
    obtain hSame | ⟨-, hSet⟩ := h.failed
    · rw [hSame]
    · rw [hSet, Function.update_of_ne hq]
  admitted x _ := by rw [h.admitted]
  now := h.ages.1
  rooms := h.ages.2

theorem Modest.inv (h : Modest pid w v) (hInv : Inv n w) (hPid : pid < n) : Inv n v where
  fresh q hq := by
    rw [h.stage, (h.rely (by omega : q ≠ pid)).failed]
    exact hInv.fresh q hq
  entered x hx := by
    rw [h.admitted] at hx
    rw [h.stage]
    obtain ⟨hStage, hNot⟩ := hInv.entered x hx
    refine ⟨hStage, ?_⟩
    obtain hSame | ⟨hNone, hSet⟩ := h.failed
    · rw [hSame]
      exact hNot
    · rw [hSet, Function.update_of_ne (hNone x hx)]
      exact hNot
  unique x hx y hy := by
    rw [h.admitted] at hx hy
    exact hInv.unique x hx y hy
  members x := by
    rw [h.members, h.admitted, h.stage]
    exact hInv.members x

theorem setStage_rely {st : Stage} {q : Nat} (hq : q ≠ pid) : Rely q w (w.setStage pid st) where
  stage := Function.update_of_ne hq _ _
  failed := rfl
  admitted _ _ := .rfl
  now := le_refl _
  rooms _ h := h

theorem register_kept {x : Member} (hInv : Inv n w) (hx : x.conn < n) (hStage : w.stage x.conn = .outside)
    (hNot : w.failed x.conn = false) :
    Inv n (w.register x) ∧ ∀ q, q ≠ x.conn → Rely q w (w.register x) := by
  have hNew : ∀ y ∈ w.admitted, y.conn ≠ x.conn := by
    intro y hy hConn
    apply (hInv.entered y hy).1
    rw [hConn]
    exact hStage
  have hOf : ∀ y, y ∈ (w.register x).admitted ↔ y ∈ w.admitted ∨ y = x := by
    intro y
    exact List.mem_append.trans (or_congr_right List.mem_singleton)
  have hOther : ∀ y ∈ w.admitted, (w.register x).stage y.conn = w.stage y.conn := fun y hy =>
    Function.update_of_ne (hNew y hy) _ _
  have hSelf : (w.register x).stage x.conn = .registered := Function.update_self _ _ _
  constructor
  · constructor
    · intro q hq
      obtain ⟨hOut, hFailed⟩ := hInv.fresh q hq
      refine ⟨?_, hFailed⟩
      rw [← hOut]
      exact Function.update_of_ne (by omega) _ _
    · intro y hy
      obtain hy | rfl := (hOf y).mp hy
      · rw [hOther y hy]
        exact hInv.entered y hy
      · rw [hSelf]
        exact ⟨by simp, hNot⟩
    · intro y hy z hz hConn
      obtain hOldY | rfl := (hOf y).mp hy <;> obtain hOldZ | rfl := (hOf z).mp hz
      · exact hInv.unique y hOldY z hOldZ hConn
      · exact absurd hConn (hNew y hOldY)
      · exact absurd hConn.symm (hNew z hOldZ)
      · rfl
    · intro y
      have hMem : y ∈ (w.register x).members ↔ y ∈ w.members ∨ y = x :=
        List.mem_append.trans (or_congr_right List.mem_singleton)
      rw [hMem, hOf, hInv.members y]
      constructor
      · rintro (⟨hy, hStage⟩ | rfl)
        · rw [hOther y hy]
          exact ⟨.inl hy, hStage⟩
        · exact ⟨.inr rfl, .inl hSelf⟩
      · rintro ⟨hy | rfl, hStage⟩
        · rw [hOther y hy] at hStage
          exact .inl ⟨hy, hStage⟩
        · exact .inr rfl
  · intro q hq
    refine ⟨Function.update_of_ne hq _ _, rfl, fun y hy => ?_, le_refl _, fun _ h => h⟩
    rw [hOf]
    constructor
    · rintro (hOld | rfl)
      · exact hOld
      · exact absurd hy.symm hq
    · exact .inl

theorem setStage_kept {st : Stage} (hInv : Inv n w) (hPid : pid < n)
    (hSt : st ≠ .outside) (hSame : (st = .registered ∨ st = .announced) ↔
      (w.stage pid = .registered ∨ w.stage pid = .announced)) :
    Inv n (w.setStage pid st) := by
  have hSelf : (w.setStage pid st).stage pid = st := Function.update_self _ _ _
  have hOther : ∀ q, q ≠ pid → (w.setStage pid st).stage q = w.stage q := fun q hq =>
    Function.update_of_ne hq _ _
  constructor
  · intro q hq
    rw [hOther q (by omega)]
    exact hInv.fresh q hq
  · intro x hx
    obtain ⟨hStage, hNot⟩ := hInv.entered x hx
    refine ⟨?_, hNot⟩
    by_cases hConn : x.conn = pid
    · rw [hConn, hSelf]
      exact hSt
    · rw [hOther _ hConn]
      exact hStage
  · exact hInv.unique
  · intro x
    refine (hInv.members x).trans (and_congr_right fun _ => ?_)
    by_cases hConn : x.conn = pid
    · rw [hConn, hSelf]
      exact hSame.symm
    · rw [hOther _ hConn]

theorem remove_kept (hInv : Inv n w) (hPid : pid < n) :
    Inv n (w.remove pid) ∧ ∀ q, q ≠ pid → Rely q w (w.remove pid) := by
  have hSelf : (w.remove pid).stage pid = .leaving := Function.update_self _ _ _
  have hOther : ∀ q, q ≠ pid → (w.remove pid).stage q = w.stage q := fun q hq =>
    Function.update_of_ne hq _ _
  constructor
  · constructor
    · intro q hq
      rw [hOther q (by omega)]
      exact hInv.fresh q hq
    · intro x hx
      obtain ⟨hIn, hNot⟩ := hInv.entered x hx
      refine ⟨?_, hNot⟩
      by_cases hConn : x.conn = pid
      · rw [hConn, hSelf]
        simp
      · rw [hOther _ hConn]
        exact hIn
    · exact hInv.unique
    · intro x
      have hMem : x ∈ (w.remove pid).members ↔ x ∈ w.members ∧ x.conn ≠ pid := by
        simp [World.remove]
      rw [hMem, hInv.members x]
      by_cases hConn : x.conn = pid
      · rw [hConn, hSelf]
        simp
      · rw [hOther _ hConn]
        exact ⟨fun h => h.1, fun h => ⟨h, hConn⟩⟩
  · exact fun q hq => ⟨hOther q hq, rfl, fun _ _ => .rfl, le_refl _, fun _ h => h⟩

theorem Req.calm (h : Req pid w o) : o.calm = true ∨ (∃ c p nickname b, o = .connect c p nickname b) ∨
    (∃ c m, o = .broadcast c m) ∨ ∃ c, o = .disconnect c := by
  cases o with
  | connect c p nickname b => exact .inr (.inl ⟨c, p, nickname, b, rfl⟩)
  | broadcast c m => exact .inr (.inr (.inl ⟨c, m, rfl⟩))
  | disconnect c => exact .inr (.inr (.inr ⟨c, rfl⟩))
  | room o => cases o <;> first | exact .inl rfl | cases h
  | _ => exact .inl rfl

/-- A broadcast of the endpoint: the arrival after the registration, the departure after
the removal. -/
theorem Req.broadcast {code : String} {m : ServerMessage} (h : Req pid w (.broadcast code m)) :
    (∃ p nickname k, m = .participantJoined p nickname k ∧ w.stage pid = .registered ∧
      Owns w pid code p) ∨
    ∃ p nickname k, m = .participantLeft p nickname k ∧ w.stage pid = .leaving ∧ Owns w pid code p := by
  cases m with
  | participantJoined p nickname k => exact .inl ⟨p, nickname, k, rfl, h⟩
  | participantLeft p nickname k => exact .inr ⟨p, nickname, k, rfl, h⟩
  | _ => cases h

theorem broadcast_kept {r : Nat} {code : String} {m : ServerMessage} {fail : Bool} (hInv : Inv n w)
    (hPid : pid < n) (hReq : Req pid w (.broadcast code m)) :
    Inv n ((w.broadcastAll r code m fail).setStage pid m.stage) ∧
      ∀ q, q ≠ pid → Rely q w ((w.broadcastAll r code m fail).setStage pid m.stage) := by
  obtain ⟨hSame, hRoom, -⟩ := broadcastAll_same w r code m fail
  have hAges := Ages.of_eq hRoom
  constructor
  · apply setStage_kept (hSame.inv hInv) hPid
    · obtain ⟨p, nickname, k, rfl, -⟩ | ⟨p, nickname, k, rfl, -⟩ := hReq.broadcast
      · simp [ServerMessage.stage]
      · simp [ServerMessage.stage]
    · rw [hSame.stage]
      obtain ⟨p, nickname, k, rfl, hStage, -⟩ | ⟨p, nickname, k, rfl, hStage, -⟩ := hReq.broadcast
      · simp [ServerMessage.stage, hStage]
      · simp [ServerMessage.stage, hStage]
  · exact fun q hq => (hSame.rely hAges q).trans (setStage_rely hq)

theorem exec_kept {R : Rooms.Outside} {out : Answer o} (hInv : Inv n w) (hReq : Req pid w o)
    (hPid : pid < n) (h : exec R w t pid n o d = some out) :
    out.spawned = none ∧ Inv n out.shared ∧ ∀ q, q ≠ pid → Rely q w out.shared := by
  obtain hCalm | ⟨c, p, nickname, b, rfl⟩ | ⟨c, m, rfl⟩ | ⟨c, rfl⟩ := hReq.calm
  · obtain ⟨hSpawned, hModest, -⟩ := exec_calm hCalm h
    exact ⟨hSpawned, hModest.inv hInv hPid, fun q hq => hModest.rely hq⟩
  · cases h
    exact ⟨rfl, register_kept hInv hPid hReq.1 hReq.2⟩
  · cases h
    exact ⟨rfl, broadcast_kept hInv hPid hReq⟩
  · cases h
    exact ⟨rfl, remove_kept hInv hPid⟩

theorem env_kept {e : EnvAction} {out : World × Option Job} (h : env w n e = some out) :
    SameSockets w out.1 ∧ Ages w out.1 := by
  cases e with
  | tick dt =>
    cases h
    exact ⟨⟨rfl, rfl, rfl, rfl⟩, Int.le_add_of_nonneg_right (Int.natCast_nonneg dt), fun _ h => h⟩
  | createRoom r =>
    simp only [env] at h
    split at h <;> cases h
    refine ⟨⟨rfl, rfl, rfl, rfl⟩, le_refl _, ?_⟩
    rintro code ⟨r', hr', hCode⟩
    exact ⟨r', List.mem_append_left _ hr', hCode⟩
  | join p =>
    simp only [env] at h
    split at h <;> cases h
    exact ⟨⟨rfl, rfl, rfl, rfl⟩, le_refl _, fun _ h => h⟩
  | setStatus i st =>
    cases h
    refine ⟨⟨rfl, rfl, rfl, rfl⟩, le_refl _, ?_⟩
    rintro code ⟨r, hr, hCode⟩
    by_cases hId : r.id = i
    · exact ⟨{ r with status := st }, mem_updateWhere_of_eq hr hId, hCode⟩
    · exact ⟨r, mem_updateWhere_of_ne hr hId, hCode⟩
  | broadcast r c m fail =>
    cases h
    obtain ⟨hSame, hRoom, -⟩ := broadcastAll_same w r c (.ofMatch m) fail
    exact ⟨hSame, .of_eq hRoom⟩
  | deliver r =>
    simp only [env] at h
    split at h <;> cases h
    next c m rest _ =>
    obtain ⟨hSame, hRoom, -⟩ :=
      broadcastLocal_same { w with inbox := Function.update w.inbox r rest } r c m
    have hPopped : SameSockets w { w with inbox := Function.update w.inbox r rest } := ⟨rfl, rfl, rfl, rfl⟩
    exact ⟨hPopped.trans hSame, .of_eq hRoom⟩
  | reply conn i accepted score rt =>
    simp only [env] at h
    split at h <;> cases h
    exact ⟨⟨rfl, rfl, rfl, rfl⟩, .of_eq rfl⟩
  | _ =>
    cases h
    exact ⟨⟨rfl, rfl, rfl, rfl⟩, le_refl _, fun _ h => h⟩

def Frail {α : Type} : Coro α → Prop
  | .done _ => True
  | .call o k => o.calm = true ∧ k (.error .fault) = .done (.error .fault) ∧ ∀ v, Frail (k (.ok v))

variable {α β : Type} {O : Outside} {R : Rooms.Outside}

theorem Frail.only (ho : o.calm = true) : Frail (ask o) := ⟨ho, rfl, fun _ => trivial⟩

theorem Frail.bind {p : Coro α} {f : α → Coro β} (h : Frail p) (hf : ∀ a, Frail (f a)) :
    Frail (p >>= f) := by
  change Frail (p.bind f)
  induction p with
  | done r =>
    cases r with
    | ok a => exact hf a
    | error e => trivial
  | call o k ih =>
    refine ⟨h.1, ?_, fun v => ih _ (h.2.2 v)⟩
    change (k (.error .fault)).bind f = _
    rw [h.2.1]
    rfl

theorem Frail.call {f : o.Res → Coro β} (ho : o.calm = true) (hf : ∀ v, Frail (f v)) :
    Frail (ask o >>= f) :=
  (Frail.only ho).bind hf

theorem Frail.refused {c : Prop} [Decidable c] {code : String} {status : Nat} {message : String}
    {f : β → Coro α} {p : Coro α} (h : Frail p) :
    Frail (if c then raise code status message >>= f else p) := by
  split
  · trivial
  · exact h

theorem Frail.exceptAuth {p : Coro α} {handler : String → String → Coro α} (h : Frail p)
    (hHandler : ∀ c m, Frail (handler c m)) : Frail (exceptAuth p handler) := by
  unfold LiveQuiz.Handshake.exceptAuth
  induction p with
  | done r =>
    cases r with
    | ok a => trivial
    | error e =>
      cases e with
      | auth c _ m _ => exact hHandler c m
      | _ => trivial
  | call o k ih =>
    refine ⟨h.1, ?_, fun v => ih _ (h.2.2 v)⟩
    change (k (.error .fault)).handle _ = _
    rw [h.2.1]
    rfl

theorem decodeToken_frail {token type : String} : Frail (decodeToken O token type) := by
  apply Frail.call rfl
  intro now
  split
  case h_2 => trivial
  case h_1 claims _ =>
  apply Frail.refused
  exact Frail.refused trivial

theorem refuse_frail {reason : String} : Frail (refuse reason : Coro (Option α)) :=
  Frail.call rfl fun _ => trivial

theorem authenticate_frail {code token : String} : Frail (authenticate O code token) := by
  unfold authenticate
  split
  · exact refuse_frail
  apply Frail.bind
  · apply Frail.exceptAuth
    · exact Frail.bind decodeToken_frail fun _ => trivial
    · exact fun _ _ => refuse_frail
  intro found
  split
  case h_2 => trivial
  case h_1 claims =>
  split
  · exact refuse_frail
  split
  case h_2 => exact refuse_frail
  case h_1 participantId _ =>
  apply Frail.call rfl
  intro found
  split
  case h_2 => exact refuse_frail
  case h_1 room => trivial

theorem buildSnapshot_frail {code : String} : Frail (lift (Rooms.buildSnapshot code)) := by
  refine ⟨rfl, rfl, fun cached => ?_⟩
  cases cached with
  | some s => trivial
  | none =>
    refine ⟨rfl, rfl, fun found => ?_⟩
    cases found with
    | none => trivial
    | some room =>
      refine ⟨rfl, rfl, fun rows => ?_⟩
      refine ⟨rfl, rfl, fun _ => ?_⟩
      exact ⟨rfl, rfl, fun _ => trivial⟩

theorem snapshotOrClose_frail {code : String} : Frail (snapshotOrClose code) := by
  apply Frail.exceptAuth
  · exact Frail.bind buildSnapshot_frail fun _ => trivial
  · intro c m
    apply Frail.call rfl
    intro _
    exact Frail.call rfl fun _ => trivial

theorem wp_frail {p : Coro α} (h : Frail p) (hOut : w.stage pid = .outside)
    (hNot : w.failed pid = false) :
    wp (endpoint O R) contract pid t p (fun r w' => w'.stage pid = .outside ∧
      (w'.failed pid = false ∨ r = .error .fault)) w := by
  induction p generalizing w with
  | done r => exact ⟨hOut, .inl hNot⟩
  | call o k ih =>
    intro w₁ n _ hRely hInv
    have hOut₁ : w₁.stage pid = .outside := hRely.stage.trans hOut
    have hReq : Req pid w₁ o := by
      have hCalm := h.1
      cases o with
      | room o => cases o <;> first | exact ⟨by simp [hOut₁], by simp [hOut₁]⟩ | cases hCalm
      | connect _ _ _ _ => cases hCalm
      | broadcast _ _ => cases hCalm
      | disconnect _ => cases hCalm
      | _ => exact ⟨by simp [hOut₁], by simp [hOut₁]⟩
    refine ⟨hReq, fun d out hExec => ?_⟩
    obtain ⟨-, hModest, ⟨v, hv, hSame, -⟩ | ⟨hErr, -⟩⟩ := exec_calm h.1 hExec
    · rw [hv]
      apply ih _ (h.2.2 v)
      · rw [hModest.stage, hOut₁]
      · rw [hSame, hRely.failed, hNot]
    · rw [hErr, h.2.1]
      exact ⟨by rw [hModest.stage, hOut₁], .inr rfl⟩

theorem leave_runs {code nickname : String} {p : Id} {k : Nat} (hStage : w.stage pid = .announced)
    (hOwns : Owns w pid code p) :
    wp (endpoint O R) contract pid t (leave code p nickname k)
      (fun r w' => r = .ok () ∧ w'.stage pid = .gone) w := by
  intro w₁ n _ hRely _
  refine ⟨hRely.stage.trans hStage, fun d out hExec => ?_⟩
  cases hExec
  have hOwns₁ : Owns w₁ pid code p := hOwns.rely hRely
  replace hOwns₁ : Owns (w₁.remove pid) pid code p := hOwns₁
  intro w₂ n₂ _ hRely₂ _
  constructor
  · constructor
    · rw [hRely₂.stage]
      exact Function.update_self _ _ _
    · exact hOwns₁.rely hRely₂
  intro d₂ out₂ hExec₂
  cases hExec₂
  exact ⟨rfl, Function.update_self _ _ _⟩

theorem Modest.owns {code : String} {p : Id} (h : Modest pid w v) (hOwns : Owns w pid code p) :
    Owns v pid code p := by
  obtain ⟨x, hx, hRest⟩ := hOwns
  exact ⟨x, h.admitted ▸ hx, hRest⟩

theorem attend_runs {code nickname : String} {p : Id} {isHost : Bool} {k : Nat}
    (hOut : w.stage pid = .outside) (hNot : w.failed pid = false) :
    wp (endpoint O R) contract pid t (attend code p nickname isHost k)
      (fun _ w' => w'.stage pid = .gone) w := by
  intro w₁ n _ hRely _
  refine ⟨⟨hRely.stage.trans hOut, hRely.failed.trans hNot⟩, fun d out hExec => ?_⟩
  cases hExec
  have hOwns : Owns (w₁.register ⟨pid, t.replica, code, p, nickname, isHost⟩) pid code p :=
    ⟨_, List.mem_append_right _ (List.mem_singleton_self _), rfl, rfl, rfl⟩
  have hBody : wp (endpoint O R) contract pid t
      (do
        ask (.broadcast code (.participantJoined p nickname k))
        ask .receive)
      (fun _ w' => w'.stage pid = .announced ∧ Owns w' pid code p)
      (w₁.register ⟨pid, t.replica, code, p, nickname, isHost⟩) := by
    intro w₂ n₂ _ hRely₂ _
    have hOwns₂ := hOwns.rely hRely₂
    refine ⟨⟨hRely₂.stage.trans (Function.update_self _ _ _), hOwns₂⟩, fun d₂ out₂ hExec₂ => ?_⟩
    cases hExec₂
    intro w₃ n₃ _ hRely₃ _
    have hStage₃ : w₃.stage pid = .announced := by
      rw [hRely₃.stage]
      exact Function.update_self _ _ _
    have hOwns₃ : Owns w₃ pid code p := by
      apply Owns.rely _ hRely₃
      obtain ⟨x, hx, hRest⟩ := hOwns₂
      obtain ⟨hSame, -⟩ := broadcastAll_same w₂ t.replica code (.participantJoined p nickname k)
        (d₂.fault ≠ .none)
      exact ⟨x, hSame.admitted ▸ hx, hRest⟩
    refine ⟨⟨by simp [hStage₃], by simp [hStage₃]⟩, fun d₃ out₃ hExec₃ => ?_⟩
    have hExec₃' : exec R w₃ t pid n₃ .receive d₃ = some out₃ := hExec₃
    obtain ⟨-, hModest, -⟩ := exec_calm rfl hExec₃'
    have hEnd : out₃.shared.stage pid = .announced ∧ Owns out₃.shared pid code p :=
      ⟨by rw [hModest.stage, hStage₃], hModest.owns hOwns₃⟩
    cases out₃.result <;> exact hEnd
  change wp (endpoint O R) contract pid t (withFinally _ _) _ _
  apply wp_bind
  apply wp_handle
  apply wp_mono hBody
  intro r w' hEnd
  cases r with
  | ok _ => exact wp_mono (leave_runs hEnd.1 hEnd.2) fun _ _ h => h.2
  | error e =>
    apply wp_bind
    apply wp_mono (leave_runs hEnd.1 hEnd.2)
    rintro r w' ⟨rfl, hGone⟩
    exact hGone

theorem wsRoomEndpoint_runs {code token : String} (hOut : w.stage pid = .outside)
    (hNot : w.failed pid = false) :
    wp (endpoint O R) contract pid t (wsRoomEndpoint O code token)
      (fun _ w' => w'.stage pid = .outside ∨ w'.stage pid = .gone) w := by
  have hNext : ∀ {α : Type} {p : Coro α} {f : α → Coro Unit} {w : World}, Frail p →
      w.stage pid = .outside → w.failed pid = false →
      (∀ a w', w'.stage pid = .outside → w'.failed pid = false → wp (endpoint O R) contract pid t (f a)
        (fun _ w' => w'.stage pid = .outside ∨ w'.stage pid = .gone) w') →
      wp (endpoint O R) contract pid t (p >>= f)
        (fun _ w' => w'.stage pid = .outside ∨ w'.stage pid = .gone) w := by
    intro α p f w hp hOut hNot hf
    apply wp_bind
    apply wp_mono (wp_frail hp hOut hNot)
    rintro r w' ⟨hOut', hEnd⟩
    cases r with
    | ok a => exact hf a w' hOut' (hEnd.resolve_right (by simp))
    | error e => exact .inl hOut'
  apply hNext authenticate_frail hOut hNot
  intro found w₁ hOut₁ hNot₁
  split
  case h_2 => exact .inl hOut₁
  case h_1 participantId nickname isHost =>
  apply hNext (Frail.only rfl) hOut₁ hNot₁
  intro _ w₂ hOut₂ hNot₂
  apply hNext snapshotOrClose_frail hOut₂ hNot₂
  intro found w₃ hOut₃ hNot₃
  split
  case h_2 => exact .inl hOut₃
  case h_1 snapshot =>
  apply hNext (Frail.only rfl) hOut₃ hNot₃
  intro _ w₄ hOut₄ hNot₄
  exact wp_mono (attend_runs hOut₄ hNot₄) fun _ _ hGone => .inr hGone

theorem jobBody_runs (job : Job) (hOut : w.stage pid = .outside) (hNot : w.failed pid = false) :
    wp (endpoint O R) contract pid t (jobBody O job) (contract.post pid t) w := by
  cases job with
  | connect r code token => exact wsRoomEndpoint_runs hOut hNot
  | fetchRoom code =>
    have hFrail : Frail (fetchRoom code) :=
      Frail.bind buildSnapshot_frail fun _ => Frail.only rfl
    exact wp_mono (wp_frail hFrail hOut hNot) fun _ _ hEnd => .inl hEnd.1

theorem sound : Sound (endpoint O R) contract where
  rely_trans _ _ _ _ h h' := Rely.trans h h'
  rely_refl := Rely.refl
  post_rely pid t r w w' h hRely := by
    have hRely' : Rely pid w w' := hRely
    change w'.stage pid = .outside ∨ w'.stage pid = .gone
    rw [hRely'.stage]
    exact h
  exec w t pid n o d out hInv hReq hPid hExec := by
    obtain ⟨hNone, hInv', hRely⟩ := exec_kept hInv hReq hPid hExec
    refine ⟨Inv.mono hInv' (by omega), fun q _ hq => hRely q hq, fun t' ht' => ?_⟩
    rw [hNone] at ht'
    cases ht'
  env w n e out hInv hEnv := by
    obtain ⟨hSame, hAges⟩ := env_kept (n := n) hEnv
    have hInv' := hSame.inv hInv
    refine ⟨hInv'.mono (by omega), fun q _ => hSame.rely hAges q, fun t' _ => ?_⟩
    obtain ⟨hOut, hNot⟩ := hInv'.fresh n le_rfl
    exact jobBody_runs t' hOut hNot

theorem kept_of_reach {C : SysState → SysLabel → Prop} {S : SysState}
    (h : (endpoint O R).Reach C initial S) : Kept (endpoint O R) contract S := by
  apply sound.kept _ h
  constructor
  · constructor
    · exact fun _ _ => ⟨rfl, rfl⟩
    · exact fun _ hx => by cases hx
    · exact fun _ hx => by cases hx
    · intro x
      constructor
      · intro hx
        cases hx
      · rintro ⟨hx, -⟩
        cases hx
  · exact fun _ _ hp => by cases hp

end

namespace Demo

def outside : Outside where
  verify
    | "ann" => some ⟨"participant", 100, some "AB", some "21", some "ann"⟩
    | "bob" => some ⟨"participant", 100, some "AB", some "22", some "bob"⟩
    | _ => none
  parseInt
    | "21" => some 21
    | "22" => some 22
    | _ => none

def policy : Rooms.Outside := ⟨fun _ => [], fun _ _ _ _ => "", id, "duplicate key"⟩

def calls (pid k : Nat) : List SysLabel := (List.range k).map fun _ => .op pid {}

/-- The room of host 7, with Ann and Bob in it. -/
def room : List SysLabel :=
  [.env (.createRoom ⟨1, "AB", 7, 5, .lobby, 8, []⟩),
    .env (.join ⟨21, 1, none, "ann", 0, none, false⟩), .env (.join ⟨22, 1, none, "bob", 0, none, false⟩)]

def annOpens : List SysLabel := room ++ [.env (.request (.connect 0 "AB" "ann"))] ++ calls 0 11

end Demo

end LiveQuiz.Handshake
