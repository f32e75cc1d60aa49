import LiveQuiz.Handshake.Contract

/-! # Presence

A client that has listened from the start shows a participant online by the last arrival
or departure it has heard of. A departure is broadcast for each socket, so one of several
sockets that goes takes the participant offline.
-/

namespace LiveQuiz.Handshake

open Coroutine

set_option autoImplicit false

/-- The broadcasts to a room in the order sent. -/
def roomLog (sent : List (String × ServerMessage)) (code : String) : List ServerMessage :=
  (sent.filter (·.1 = code)).map (·.2)

/-- Whether the client shows the participant online. -/
def Shows (s : Client.LiveMatchState) (p : Id) : Prop :=
  ∃ x ∈ s.participants, x.participantId = p ∧ x.online = true

def said (p : Id) (online : Bool) : ServerMessage → Bool
  | .participantJoined q _ _ => if q = p then true else online
  | .participantLeft q _ _ => if q = p then false else online
  | _ => online

def Announced (w : World) (code : String) (p : Id) : Prop :=
  (roomLog w.sent code).foldl (said p) false = true

def announcing (pr : Proc Op Op.Res Exn Unit Job) : Bool :=
  match pr.prog with
  | .call (.broadcast _ _) _ => true
  | _ => false

structure Agrees (w : World) : Prop where
  live : ∀ m ∈ w.sent, ∀ s, m.2 ≠ .roomSnapshot s
  shown : ∀ x ∈ w.members, w.stage x.conn = .announced → Announced w x.room x.participantId
  present : ∀ code p, Announced w code p → ∃ x ∈ w.admitted, x.room = code ∧ x.participantId = p ∧
    (w.stage x.conn = .announced ∨ w.stage x.conn = .leaving)

section

variable {w v : World} {t : Job} {pid n : Nat} {code : String} {p : Id}

theorem announced_append {c : String} {m : ServerMessage} (h : v.sent = w.sent ++ [(c, m)]) :
    Announced v code p ↔
      (if c = code then said p ((roomLog w.sent code).foldl (said p) false) m = true
        else Announced w code p) := by
  unfold Announced roomLog
  rw [h, List.filter_append, List.map_append, List.foldl_append]
  by_cases hc : c = code
  · simp [hc]
  · simp [hc]

theorem announced_other {c : String} {m : ServerMessage} (h : v.sent = w.sent ++ [(c, m)])
    (hm : c = code → ∀ b, said p b m = b) : Announced v code p ↔ Announced w code p := by
  rw [announced_append h]
  split
  next hc =>
    rw [hm hc]
    rfl
  · rfl

theorem announced_congr (h : v.sent = w.sent) : Announced v code p ↔ Announced w code p := by
  unfold Announced
  rw [h]

theorem Agrees.congr (h : Agrees w) (hMembers : v.members = w.members) (hAdmitted : v.admitted = w.admitted)
    (hStage : v.stage = w.stage) (hSent : v.sent = w.sent) : Agrees v where
  live m hm := by
    rw [hSent] at hm
    exact h.live m hm
  shown x hx hAnn := by
    rw [hMembers] at hx
    rw [hStage] at hAnn
    exact (announced_congr hSent).mpr (h.shown x hx hAnn)
  present code p hAnn := by
    rw [hAdmitted, hStage]
    exact h.present code p ((announced_congr hSent).mp hAnn)

theorem Agrees.overhear {c : String} {m : ServerMessage} (h : Agrees w) (hSame : SameSockets w v)
    (hSent : v.sent = w.sent ++ [(c, m)]) (hm : ∀ s, m ≠ .roomSnapshot s)
    (hOther : ∀ p b, said p b m = b) : Agrees v where
  live m' hm' := by
    rw [hSent] at hm'
    obtain hOld | hNew := List.mem_append.mp hm'
    · exact h.live m' hOld
    · rw [List.mem_singleton] at hNew
      subst hNew
      exact hm
  shown x hx hAnn := by
    rw [hSame.members] at hx
    rw [hSame.stage] at hAnn
    exact (announced_other hSent fun _ => hOther x.participantId).mpr (h.shown x hx hAnn)
  present code p hAnn := by
    rw [hSame.admitted, hSame.stage]
    exact h.present code p ((announced_other hSent fun _ => hOther p).mp hAnn)

theorem Agrees.register {x : Member} (h : Agrees w) (hInv : Inv n w) (hStage : w.stage x.conn = .outside) :
    Agrees (w.register x) := by
  have hNew : ∀ y ∈ w.admitted, (w.register x).stage y.conn = w.stage y.conn := by
    intro y hy
    apply Function.update_of_ne
    intro hConn
    apply (hInv.entered y hy).1
    rw [hConn]
    exact hStage
  constructor
  · exact h.live
  · intro y hy hAnn
    obtain hOld | hLast := List.mem_append.mp hy
    · rw [hNew y ((hInv.members y).mp hOld).1] at hAnn
      exact h.shown y hOld hAnn
    · rw [List.mem_singleton] at hLast
      subst hLast
      rw [show (w.register y).stage y.conn = .registered from Function.update_self _ _ _] at hAnn
      cases hAnn
  · intro code p hAnn
    obtain ⟨y, hy, hCode, hp, hIn⟩ := h.present code p hAnn
    refine ⟨y, List.mem_append_left _ hy, hCode, hp, ?_⟩
    rw [hNew y hy]
    exact hIn

theorem Agrees.remove (h : Agrees w) : Agrees (w.remove pid) := by
  constructor
  · exact h.live
  · intro x hx hAnn
    obtain ⟨hOld, hConn⟩ := List.mem_filter.mp hx
    rw [show (w.remove pid).stage x.conn = w.stage x.conn from
      Function.update_of_ne (by simpa using hConn) _ _] at hAnn
    exact h.shown x hOld hAnn
  · intro code p hAnn
    obtain ⟨x, hx, hCode, hp, hIn⟩ := h.present code p hAnn
    refine ⟨x, hx, hCode, hp, ?_⟩
    by_cases hConn : x.conn = pid
    · right
      rw [hConn]
      exact Function.update_self _ _ _
    · rw [show (w.remove pid).stage x.conn = w.stage x.conn from Function.update_of_ne hConn _ _]
      exact hIn

theorem Agrees.joined {r k : Nat} {nickname : String} {fail : Bool} (h : Agrees w) (hInv : Inv n w)
    (hOwns : Owns w pid code p) (hStage : w.stage pid = .registered) :
    Agrees ((w.broadcastAll r code (.participantJoined p nickname k) fail).setStage pid .announced) := by
  obtain ⟨hSame, -, hSent⟩ := broadcastAll_same w r code (.participantJoined p nickname k) fail
  generalize w.broadcastAll r code (.participantJoined p nickname k) fail = v at hSame hSent ⊢
  have hSelf : (v.setStage pid .announced).stage pid = .announced := Function.update_self _ _ _
  have hOther : ∀ q, q ≠ pid → (v.setStage pid .announced).stage q = w.stage q := by
    intro q hq
    rw [← hSame.stage]
    exact Function.update_of_ne hq _ _
  have hSays : ∀ code' p', Announced (v.setStage pid .announced) code' p' ↔
      (code = code' ∧ p = p') ∨ Announced w code' p' := by
    intro code' p'
    rw [announced_append (v := v.setStage pid .announced) hSent]
    by_cases hCode : code = code'
    · by_cases hp : p = p'
      · simp [hCode, hp, said]
      · simp [hCode, hp, said, Announced]
    · simp [hCode]
  constructor
  · intro m hm
    rw [show (v.setStage pid .announced).sent = w.sent ++ _ from hSent] at hm
    obtain hOld | hNew := List.mem_append.mp hm
    · exact h.live m hOld
    · rw [List.mem_singleton] at hNew
      subst hNew
      exact fun _ hEq => by cases hEq
  · intro x hx hAnn
    rw [show (v.setStage pid .announced).members = w.members from hSame.members] at hx
    rw [hSays]
    by_cases hConn : x.conn = pid
    · obtain ⟨y, hy, hyConn, hCode, hp⟩ := hOwns
      have hEq := hInv.unique x ((hInv.members x).mp hx).1 y hy (hConn.trans hyConn.symm)
      rw [hEq]
      exact .inl ⟨hCode.symm, hp.symm⟩
    · rw [hOther _ hConn] at hAnn
      exact .inr (h.shown x hx hAnn)
  · intro code' p' hAnn
    rw [show (v.setStage pid .announced).admitted = w.admitted from hSame.admitted]
    obtain ⟨rfl, rfl⟩ | hOld := (hSays code' p').mp hAnn
    · obtain ⟨y, hy, hyConn, hCode, hp⟩ := hOwns
      refine ⟨y, hy, hCode, hp, .inl ?_⟩
      rw [hyConn]
      exact hSelf
    · obtain ⟨x, hx, hCode, hp, hIn⟩ := h.present code' p' hOld
      refine ⟨x, hx, hCode, hp, ?_⟩
      rw [hOther]
      · exact hIn
      · intro hConn
        rw [hConn, hStage] at hIn
        obtain hIn | hIn := hIn <;> cases hIn

theorem Agrees.left {r k : Nat} {nickname : String} {fail : Bool} (h : Agrees w) (hInv : Inv n w)
    (hOwns : Owns w pid code p)
    (hAlone : ∀ x ∈ w.members, x.room = code → x.participantId = p → w.stage x.conn ≠ .announced) :
    Agrees ((w.broadcastAll r code (.participantLeft p nickname k) fail).setStage pid .gone) := by
  obtain ⟨hSame, -, hSent⟩ := broadcastAll_same w r code (.participantLeft p nickname k) fail
  generalize w.broadcastAll r code (.participantLeft p nickname k) fail = v at hSame hSent ⊢
  have hSelf : (v.setStage pid .gone).stage pid = .gone := Function.update_self _ _ _
  have hOther : ∀ q, q ≠ pid → (v.setStage pid .gone).stage q = w.stage q := by
    intro q hq
    rw [← hSame.stage]
    exact Function.update_of_ne hq _ _
  have hSays : ∀ code' p', Announced (v.setStage pid .gone) code' p' ↔
      ¬(code = code' ∧ p = p') ∧ Announced w code' p' := by
    intro code' p'
    rw [announced_append (v := v.setStage pid .gone) hSent]
    by_cases hCode : code = code'
    · by_cases hp : p = p'
      · simp [hCode, hp, said]
      · simp [hCode, hp, said, Announced]
    · simp [hCode]
  constructor
  · intro m hm
    rw [show (v.setStage pid .gone).sent = w.sent ++ _ from hSent] at hm
    obtain hOld | hNew := List.mem_append.mp hm
    · exact h.live m hOld
    · rw [List.mem_singleton] at hNew
      subst hNew
      exact fun _ hEq => by cases hEq
  · intro x hx hAnn
    rw [show (v.setStage pid .gone).members = w.members from hSame.members] at hx
    have hConn : x.conn ≠ pid := by
      intro hConn
      rw [hConn, hSelf] at hAnn
      cases hAnn
    rw [hOther _ hConn] at hAnn
    rw [hSays]
    exact ⟨fun hEq => hAlone x hx hEq.1.symm hEq.2.symm hAnn, h.shown x hx hAnn⟩
  · intro code' p' hAnn
    rw [show (v.setStage pid .gone).admitted = w.admitted from hSame.admitted]
    obtain ⟨hNe, hOld⟩ := (hSays code' p').mp hAnn
    obtain ⟨x, hx, hCode, hp, hIn⟩ := h.present code' p' hOld
    refine ⟨x, hx, hCode, hp, ?_⟩
    rw [hOther]
    · exact hIn
    · intro hConn
      obtain ⟨y, hy, hyConn, hyCode, hyp⟩ := hOwns
      have hEq := hInv.unique x hx y hy (hConn.trans hyConn.symm)
      rw [hEq] at hCode hp
      exact hNe ⟨hyCode.symm.trans hCode, hyp.symm.trans hp⟩

theorem Agrees.exec {R : Rooms.Outside} {o : Op} {d : Rooms.Decision} {out : Answer o} (h : Agrees w)
    (hInv : Inv n w) (hReq : Req pid w o) (hExec : exec R w t pid n o d = some out)
    (hAlone : ∀ code p nickname k, o = .broadcast code (.participantLeft p nickname k) →
      ∀ x ∈ w.members, x.room = code → x.participantId = p → w.stage x.conn ≠ .announced) :
    Agrees out.shared := by
  obtain hCalm | ⟨c, p, nickname, b, rfl⟩ | ⟨c, m, rfl⟩ | ⟨c, rfl⟩ := hReq.calm
  · obtain ⟨-, hModest, -⟩ := exec_calm hCalm hExec
    exact h.congr hModest.members hModest.admitted hModest.stage hModest.sent
  · cases hExec
    exact h.register hInv hReq.1
  · cases hExec
    obtain ⟨p, nickname, k, rfl, hStage, hOwns⟩ | ⟨p, nickname, k, rfl, hStage, hOwns⟩ := hReq.broadcast
    · exact h.joined hInv hOwns hStage
    · exact h.left hInv hOwns (hAlone c p nickname k rfl)
  · cases hExec
    exact h.remove

theorem Agrees.env {e : EnvAction} {out : World × Option Job} (h : Agrees w)
    (hEnv : env w n e = some out) : Agrees out.1 := by
  obtain ⟨hSame, -⟩ := env_kept hEnv
  cases e with
  | broadcast r c m fail =>
    cases hEnv
    exact h.overhear hSame (broadcastAll_same w r c (.ofMatch m) fail).2.2 (fun _ hEq => by cases hEq)
      fun _ _ => rfl
  | publishKicked c q report =>
    cases hEnv
    exact h.overhear hSame rfl (fun _ hEq => by cases hEq) fun _ _ => rfl
  | deliver r =>
    simp only [LiveQuiz.Handshake.env] at hEnv
    split at hEnv <;> cases hEnv
    next c m rest _ =>
    apply h.congr hSame.members hSame.admitted hSame.stage
    exact (broadcastLocal_same { w with inbox := Function.update w.inbox r rest } r c m).2.2
  | createRoom r =>
    simp only [LiveQuiz.Handshake.env] at hEnv
    split at hEnv <;> cases hEnv
    exact h.congr rfl rfl rfl rfl
  | join row =>
    simp only [LiveQuiz.Handshake.env] at hEnv
    split at hEnv <;> cases hEnv
    exact h.congr rfl rfl rfl rfl
  | reply conn i accepted score rt =>
    simp only [LiveQuiz.Handshake.env] at hEnv
    split at hEnv <;> cases hEnv
    exact h.congr rfl rfl rfl rfl
  | _ =>
    cases hEnv
    exact h.congr rfl rfl rfl rfl

variable {O : Outside} {R : Rooms.Outside}

theorem settled {S : SysState} (hKept : Kept (endpoint O R) contract S)
    (hQuiet : ∀ pr ∈ S.procs, announcing pr = false) (pid : Nat) :
    S.shared.stage pid ≠ .registered ∧ S.shared.stage pid ≠ .leaving := by
  cases hProc : S.procs[pid]? with
  | none =>
    have hOut := (hKept.inv.fresh pid (List.getElem?_eq_none_iff.mp hProc)).1
    simp [hOut]
  | some pr =>
    obtain ⟨t, prog⟩ := pr
    cases prog with
    | done r =>
      have hPost : S.shared.stage pid = .outside ∨ S.shared.stage pid = .gone := hKept.post hProc
      obtain hOut | hGone := hPost <;> simp [*]
    | call o k =>
      have hReq : Req pid S.shared o := hKept.req sound hProc
      have hNot := hQuiet _ (List.mem_of_getElem? hProc)
      cases o with
      | broadcast c m => simp [announcing] at hNot
      | connect c p nickname b => simp [hReq.1]
      | disconnect c =>
        have hAnn : S.shared.stage pid = .announced := hReq
        simp [hAnn]
      | room o => cases o <;> first | exact hReq | cases hReq
      | _ => exact hReq

end

instance (s : Client.LiveMatchState) (p : Id) : Decidable (Shows s p) :=
  inferInstanceAs (Decidable (∃ x ∈ s.participants, _))

end LiveQuiz.Handshake
