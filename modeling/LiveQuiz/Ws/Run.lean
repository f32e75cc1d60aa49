import LiveQuiz.Ws.Contract

/-! # Runs of the fan-out keep the contract

What one call or one action of the environment does to the places of the messages, then
the walk through the programs.
-/

namespace LiveQuiz.Ws

open Coroutine

set_option autoImplicit false

section

variable {ids : Nat → String} {c : Conn} {pid q r n n' : Nat} {room : String} {b : Sent}
  {conns : List Conn} {w w' : World} {e e' : Entry}

/-- The programs pass on what they did before, and further ones may. -/
structure Onward (ids : Nat → String) (w w' : World) : Prop where
  known : w.known ⊆ w'.known
  carries : ∀ {pid r e}, Carries ids w pid r e → Carries ids w' pid r e
  handling : ∀ {pid r e}, w.handling pid = some (r, e) → w'.handling pid = some (r, e)

theorem Onward.own (h : Onward ids w w') (hOwn : Own ids w pid e) : Own ids w' pid e := by
  obtain ⟨r, m, hHandling, hData⟩ := hOwn
  exact ⟨r, m, h.handling hHandling, hData⟩

theorem Onward.delivered (h : Onward ids w w') {x : Receipt} (hx : Delivered ids w x) :
    Delivered ids w' x := by
  obtain ⟨m, hm, hConn, pid, e, d, hCarries, hRest⟩ := hx
  exact ⟨m, h.known hm, hConn, pid, e, d, h.carries hCarries, hRest⟩

theorem handle_onward (hNone : w.handling pid = none) (hKnown : w'.known = w.known)
    (hHandling : w'.handling = Function.update w.handling pid (some (r, e))) :
    Onward ids w w' := by
  have hKeep : ∀ {q r' e'}, w.handling q = some (r', e') → w'.handling q = some (r', e') := by
    intro q r' e' hq
    rw [hHandling, Function.update_of_ne, hq]
    rintro rfl
    rw [hNone] at hq
    cases hq
  refine ⟨fun m hm => hKnown ▸ hm, fun h => ⟨hKeep h.1, h.2⟩, hKeep⟩

theorem carries_handle (hHandling : w'.handling = Function.update w.handling pid (some (r, e)))
    {r' : Nat} (h : Carries ids w' q r' e') :
    (q = pid ∧ r' = r ∧ e' = e) ∨ Carries ids w q r' e' := by
  by_cases hq : q = pid
  · subst hq
    have hSame := h.1
    rw [hHandling, Function.update_self] at hSame
    cases hSame
    exact .inl ⟨rfl, rfl, rfl⟩
  · right
    exact h.congr (by rw [hHandling, Function.update_of_ne hq])

theorem Inv.member_unique (h : Inv ids n w) {m m' : Member} (hm : m ∈ w.known) (hm' : m' ∈ w.known)
    (hConn : m.conn = m'.conn) : m = m' :=
  List.inj_on_of_nodup_map h.known hm hm' hConn

theorem Inv.record_unique (h : Inv ids n w) {b b' : Sent} (hb : b ∈ w.sent) (hb' : b' ∈ w.sent)
    (hSource : b.entry.source = b'.entry.source) : b = b' :=
  List.inj_on_of_nodup_map h.sources hb hb' hSource

theorem Inv.mem_audience (h : Inv ids n w) {m : Member} (hm : m ∈ w.known)
    (hAud : m.conn ∈ w.audience) : w.registered m = true ∧ w.subscribed m.replica = true := by
  obtain ⟨m', hm', hConn⟩ := List.mem_map.mp hAud
  obtain ⟨hKnown, hIn⟩ := List.mem_filter.mp hm'
  obtain rfl := h.member_unique hKnown hm hConn
  simpa using hIn

/-- The fields that say where the messages are stay as they are. -/
structure Quiet (w w' : World) : Prop where
  rooms : w'.rooms = w.rooms
  inbox : w'.inbox = w.inbox
  known : w'.known = w.known
  handling : w'.handling = w.handling
  sent : w'.sent = w.sent
  received : w'.received = w.received

theorem Quiet.rely (h : Quiet w w') (pid : Nat) : Rely ids pid w w' where
  handling := congrFun h.handling pid
  sent _ hb := h.sent ▸ hb
  known _ hm := h.known ▸ hm
  fresh m hm _ _ _ := h.known ▸ hm
  registered m _ hReg := by rwa [World.registered, h.rooms] at hReg
  received _ _ _ _ _ _ := by rw [tally, h.received, tally]

theorem Inv.quiet (h : Inv ids n w) (hSame : Quiet w w') (hLe : n ≤ n') : Inv ids n' w' := by
  obtain ⟨booted, rooms, subscribed, inbox, closed, known, handling, sent, received⟩ := w
  obtain ⟨booted', rooms', subscribed', inbox', closed', known', handling', sent', received'⟩ := w'
  obtain ⟨h₁, h₂, h₃, h₄, h₅, h₆⟩ := hSame
  dsimp only at h₁ h₂ h₃ h₄ h₅ h₆
  subst h₁ h₂ h₃ h₄ h₅ h₆
  refine ⟨h.known, h.rooms, h.nodup, h.sources, h.direct, h.broadcast, h.audience, h.inbox, ?_,
    h.waiting, h.taken, h.unique, h.received, h.arrives⟩
  intro pid r e hHandling
  obtain ⟨hLt, hSent⟩ := h.handling pid r e hHandling
  exact ⟨by omega, hSent⟩

theorem Inv.not_own (h : Inv ids n w) (hNone : w.handling pid = none) (hb : b ∈ w.sent) :
    b.entry.source ≠ .broadcast pid := by
  intro hSource
  obtain ⟨r, m, hHandling, -⟩ := h.broadcast b hb pid hSource
  rw [hNone] at hHandling
  cases hHandling

theorem eraseIdx_perm {i : Nat} {l : List Entry} (h : l[i]? = some e) :
    (e :: l.eraseIdx i).Perm l := by
  obtain ⟨hLt, rfl⟩ := List.getElem?_eq_some_iff.mp h
  exact List.getElem_cons_eraseIdx_perm hLt

theorem inv_take {i : Nat} (h : Inv ids n w) (hNone : w.handling pid = none) (hLt : pid < n)
    (hi : (w.inbox r)[i]? = some e) : Inv ids n (w.take pid r i e) := by
  have hMem : e ∈ w.inbox r := List.mem_of_getElem? hi
  obtain ⟨b, hb, rfl⟩ := h.inbox r e hMem
  have hNotOwn := h.not_own hNone hb
  have hOn : Onward ids w (w.take pid r i b.entry) := handle_onward hNone rfl rfl
  have hInbox : ∀ r', (w.take pid r i b.entry).inbox r' =
      if r' = r then (w.inbox r).eraseIdx i else w.inbox r' := by
    intro r'
    change Function.update w.inbox r _ r' = _
    by_cases hr : r' = r
    · rw [if_pos hr, hr, Function.update_self]
    · rw [if_neg hr, Function.update_of_ne hr]
  have hSub : ∀ r', ((w.take pid r i b.entry).inbox r').Sublist (w.inbox r') := by
    intro r'
    rw [hInbox]
    split
    next hr => exact hr ▸ List.eraseIdx_sublist _ _
    · exact List.Sublist.refl _
  have hPerm := eraseIdx_perm hi
  have hGone : ∀ e' ∈ (w.take pid r i b.entry).inbox r, e'.source ≠ b.entry.source := by
    intro e' he' hSource
    rw [hInbox, if_pos rfl] at he'
    have hNodup := (hPerm.map Entry.source).nodup_iff.mpr (h.waiting r)
    exact (List.nodup_cons.mp hNodup).1 (List.mem_map.mpr ⟨e', he', hSource⟩)
  have hOther : ∀ r', r' ≠ r → (w.take pid r i b.entry).inbox r' = w.inbox r' := by
    intro r' hr
    rw [hInbox, if_neg hr]
  refine ⟨h.known, h.rooms, h.nodup, h.sources, h.direct, ?_, h.audience, ?_, ?_, ?_, ?_, ?_, ?_, ?_⟩
  · exact fun b' hb' q hSource => hOn.own (h.broadcast b' hb' q hSource)
  · exact fun r' e' he' => h.inbox r' e' ((hSub r').subset he')
  · intro q r' e' hHandling
    by_cases hq : q = pid
    · subst hq
      change Function.update w.handling q _ q = _ at hHandling
      rw [Function.update_self] at hHandling
      cases hHandling
      exact ⟨hLt, b, hb, rfl⟩
    · change Function.update w.handling pid _ q = _ at hHandling
      rw [Function.update_of_ne hq] at hHandling
      exact h.handling q r' e' hHandling
  · exact fun r' => (h.waiting r').sublist ((hSub r').map _)
  · intro q r' e' hCarries e'' he'' hForwarded
    obtain ⟨-, rfl, rfl⟩ | hOld := carries_handle rfl hCarries
    · exact hGone e'' he''
    · exact h.taken q r' e' hOld e'' ((hSub r').subset he'') hForwarded
  · intro p q r' e₁ e₂ h₁ h₂ hSame
    obtain ⟨rfl, rfl, rfl⟩ | hOld₁ := carries_handle rfl h₁
    · obtain ⟨rfl, -, -⟩ | hOld₂ := carries_handle rfl h₂
      · rfl
      · exact absurd hSame (h.taken q r' e₂ hOld₂ b.entry hMem (h₁.2.resolve_left hNotOwn))
    · obtain ⟨rfl, rfl, rfl⟩ | hOld₂ := carries_handle rfl h₂
      · exact absurd hSame.symm (h.taken p r' e₁ hOld₁ b.entry hMem (h₂.2.resolve_left hNotOwn))
      · exact h.unique p q r' e₁ e₂ hOld₁ hOld₂ hSame
  · exact fun x hx => hOn.delivered (h.received x hx)
  · intro b' hb' hEligible m hm hAud hRoom hChannel
    obtain ⟨hWaits, hForwarded⟩ | ⟨q, hCarries⟩ := h.arrives b' hb' hEligible m hm hAud hRoom hChannel
    · by_cases hr : m.replica = r
      · rw [hr] at hWaits hForwarded ⊢
        obtain hEq | hRest := List.mem_cons.mp (hPerm.mem_iff.mpr hWaits)
        · refine .inr ⟨pid, ?_, .inr hForwarded⟩
          change Function.update w.handling pid _ pid = _
          rw [Function.update_self, hEq]
        · exact .inl ⟨by rwa [hInbox, if_pos rfl], hForwarded⟩
      · exact .inl ⟨by rwa [hOther _ hr], hForwarded⟩
    · exact .inr ⟨q, hOn.carries hCarries⟩

/-- A new message, which at most its sender passes on without taking it from an inbox. -/
structure Posted (ids : Nat → String) (n : Nat) (e : Entry) (w w' : World) : Prop where
  rooms : w'.rooms = w.rooms
  known : w'.known = w.known
  received : w'.received = w.received
  sent : w'.sent = w.sent ++ [⟨e, w.audience⟩]
  inbox : ∀ r, w'.inbox r = w.inbox r ++
    if matchesPattern e.channel = true ∧ w.subscribed r = true then [e] else []
  onward : Onward ids w w'
  handling : ∀ {q r e'}, w'.handling q = some (r, e') → w.handling q = some (r, e') ∨
    (e' = e ∧ q < n ∧ e.source = .broadcast q ∧ forwarded ids r e = false)
  own : ∀ q, e.source = .broadcast q → Own ids w' q e
  fresh : ∀ b ∈ w.sent, b.entry.source ≠ e.source
  direct : ∀ k, e.source = .direct k → k = w.sent.length
  reaches : Eligible e → ∀ r code, code ≠ "" → e.channel = wsRoom code →
    forwarded ids r e = true ∨ ∃ q, Carries ids w' q r e

theorem Posted.mem_sent {b : Sent} (h : Posted ids n e w w') (hb : b ∈ w'.sent) :
    b ∈ w.sent ∨ b = ⟨e, w.audience⟩ := by
  rw [h.sent] at hb
  simpa using hb

theorem Posted.mem_last (h : Posted ids n e w w') : ⟨e, w.audience⟩ ∈ w'.sent := by
  rw [h.sent]
  exact List.mem_append_right _ List.mem_cons_self

theorem Posted.mem_inbox (h : Posted ids n e w w') (he : e' ∈ w'.inbox r) :
    e' ∈ w.inbox r ∨ e' = e := by
  rw [h.inbox] at he
  obtain hOld | hNew := List.mem_append.mp he
  · exact .inl hOld
  · split at hNew
    · exact .inr (List.mem_singleton.mp hNew)
    · cases hNew

theorem Posted.carries (h : Posted ids n e w w') (hCarries : Carries ids w' q r e') :
    Carries ids w q r e' ∨ (e' = e ∧ q < n ∧ e.source = .broadcast q ∧ forwarded ids r e = false) := by
  obtain hOld | hNew := h.handling hCarries.1
  · exact .inl ⟨hOld, hCarries.2⟩
  · exact .inr hNew

theorem Inv.posted (hInv : Inv ids n w) (h : Posted ids n e w w') : Inv ids n w' := by
  have hNew : ∀ {q r e'}, Carries ids w q r e' → e'.source ≠ e.source := by
    intro q r e' hCarries
    obtain ⟨-, b, hb, rfl⟩ := hInv.handling q r e' hCarries.1
    exact h.fresh b hb
  have hNotWaiting : ∀ r, ∀ e' ∈ w.inbox r, e'.source ≠ e.source := by
    intro r e' he'
    obtain ⟨b, hb, rfl⟩ := hInv.inbox r e' he'
    exact h.fresh b hb
  have hSent : w.sent ⊆ w'.sent := by
    rw [h.sent]
    exact List.subset_append_left _ _
  refine ⟨?_, ?_, ?_, ?_, ?_, ?_, ?_, ?_, ?_, ?_, ?_, ?_, ?_, ?_⟩
  · rw [h.known]
    exact hInv.known
  · rw [h.rooms, h.known]
    exact hInv.rooms
  · rw [h.rooms]
    exact hInv.nodup
  · rw [h.sent, List.map_append, List.nodup_append]
    refine ⟨hInv.sources, List.nodup_singleton _, ?_⟩
    rintro s hs s' hs' rfl
    obtain ⟨b, hb, hSource⟩ := List.mem_map.mp hs
    exact h.fresh b hb (hSource.trans (List.mem_singleton.mp hs'))
  · intro b hb k hSource
    rw [h.sent, List.length_append, List.length_singleton]
    obtain hOld | rfl := h.mem_sent hb
    · have := hInv.direct b hOld k hSource
      omega
    · have := h.direct k hSource
      omega
  · intro b hb q hSource
    obtain hOld | rfl := h.mem_sent hb
    · exact h.onward.own (hInv.broadcast b hOld q hSource)
    · exact h.own q hSource
  · intro b hb c hc
    rw [h.known]
    obtain hOld | rfl := h.mem_sent hb
    · exact hInv.audience b hOld c hc
    · obtain ⟨m, hm, hConn⟩ := List.mem_map.mp hc
      exact ⟨m, (List.mem_filter.mp hm).1, hConn⟩
  · intro r e' he'
    obtain hOld | rfl := h.mem_inbox he'
    · obtain ⟨b, hb, hEntry⟩ := hInv.inbox r e' hOld
      exact ⟨b, hSent hb, hEntry⟩
    · exact ⟨_, h.mem_last, rfl⟩
  · intro q r e' hHandling
    obtain hOld | ⟨rfl, hLt, -, -⟩ := h.handling hHandling
    · obtain ⟨hLt, b, hb, hEntry⟩ := hInv.handling q r e' hOld
      exact ⟨hLt, b, hSent hb, hEntry⟩
    · exact ⟨hLt, _, h.mem_last, rfl⟩
  · intro r
    rw [h.inbox, List.map_append, List.nodup_append]
    refine ⟨hInv.waiting r, by split <;> simp, ?_⟩
    rintro s hs s' hs' rfl
    obtain ⟨e', he', rfl⟩ := List.mem_map.mp hs
    split at hs'
    · exact hNotWaiting r e' he' (List.mem_singleton.mp hs')
    · cases hs'
  · intro q r e' hCarries e'' he'' hForwarded
    obtain hOld | ⟨rfl, -, -, hNot⟩ := h.carries hCarries
    · obtain hOld' | rfl := h.mem_inbox he''
      · exact hInv.taken q r e' hOld e'' hOld' hForwarded
      · exact (hNew hOld).symm
    · obtain hOld' | rfl := h.mem_inbox he''
      · exact hNotWaiting r e'' hOld'
      · rw [hNot] at hForwarded
        cases hForwarded
  · intro p q r e₁ e₂ h₁ h₂ hSame
    obtain hOld₁ | ⟨rfl, -, hSource₁, -⟩ := h.carries h₁
    · obtain hOld₂ | ⟨rfl, -, -, -⟩ := h.carries h₂
      · exact hInv.unique p q r e₁ e₂ hOld₁ hOld₂ hSame
      · exact absurd hSame (hNew hOld₁)
    · obtain hOld₂ | ⟨rfl, -, hSource₂, -⟩ := h.carries h₂
      · exact absurd hSame.symm (hNew hOld₂)
      · exact Source.broadcast.inj (hSource₁.symm.trans hSource₂)
  · intro x hx
    rw [h.received] at hx
    exact h.onward.delivered (hInv.received x hx)
  · intro b hb hEligible m hm hAud hRoom hChannel
    rw [h.known] at hm
    obtain hOld | rfl := h.mem_sent hb
    · obtain ⟨hWaits, hForwarded⟩ | ⟨q, hCarries⟩ :=
        hInv.arrives b hOld hEligible m hm hAud hRoom hChannel
      · refine .inl ⟨?_, hForwarded⟩
        rw [h.inbox]
        exact List.mem_append_left _ hWaits
      · exact .inr ⟨q, h.onward.carries hCarries⟩
    · obtain hForwarded | hCarried := h.reaches hEligible m.replica m.room hRoom hChannel
      · refine .inl ⟨?_, hForwarded⟩
        have hSubscribed := (hInv.mem_audience hm hAud).2
        rw [h.inbox, if_pos ⟨by rw [hChannel]; exact matchesPattern_wsRoom _, hSubscribed⟩]
        exact List.mem_append_right _ List.mem_cons_self
      · exact .inr hCarried

theorem Posted.rely (h : Posted ids n e w w') (hHandling : w'.handling q = w.handling q) :
    Rely ids q w w' where
  handling := hHandling
  sent := by
    rw [h.sent]
    exact List.subset_append_left _ _
  known _ hm := h.known ▸ hm
  fresh m hm _ _ _ := h.known ▸ hm
  registered m _ hReg := by rwa [World.registered, h.rooms] at hReg
  received _ _ _ _ _ _ := by rw [tally, h.received, tally]

theorem enqueue_eq (w : World) (e : Entry) : w.enqueue e = { w with
    inbox := fun r => w.inbox r ++
      if matchesPattern e.channel = true ∧ w.subscribed r = true then [e] else [] } := by
  unfold World.enqueue
  by_cases hPattern : matchesPattern e.channel = true
  · rw [if_pos hPattern]
    congr 1
    funext r
    by_cases hSub : w.subscribed r = true <;> simp [hPattern, hSub]
  · simp [hPattern]

theorem forwarded_stamp (hIds : Function.Injective ids) {src : Source} {code : String} {m : Message}
    {r' : Nat} (hCode : code ≠ "") (hr : r' ≠ r) :
    forwarded ids r' ⟨src, wsRoom code, some (stamp ids r m)⟩ = true := by
  have hId : ids r ≠ ids r' := fun h => hr (hIds h).symm
  simp [forwarded, roomCodeFromChannel_wsRoom hCode, stamp, Message.lookup_insert, hId]

theorem not_forwarded_stamp {src : Source} {channel : String} {m : Message} :
    forwarded ids r ⟨src, channel, some (stamp ids r m)⟩ = false := by
  simp [forwarded, stamp, Message.lookup_insert]

theorem posted_broadcast (hIds : Function.Injective ids) (h : Inv ids n w)
    (hNone : w.handling pid = none) (hLt : pid < n) {channel : String} {m : Message}
    (he : e = ⟨.broadcast pid, channel, some (stamp ids r m)⟩) :
    Posted ids n e w (((w.announce e).handle pid r e).enqueue e) := by
  have hSelf : (((w.announce e).handle pid r e).enqueue e).handling pid = some (r, e) := by
    rw [enqueue_eq]
    exact Function.update_self _ _ _
  rw [enqueue_eq] at hSelf ⊢
  refine ⟨rfl, rfl, rfl, rfl, fun _ => rfl, handle_onward hNone rfl rfl, ?_, ?_, ?_, ?_, ?_⟩
  · intro q r' e' hHandling
    by_cases hq : q = pid
    · subst hq
      rw [hSelf] at hHandling
      cases hHandling
      subst he
      exact .inr ⟨rfl, hLt, rfl, not_forwarded_stamp⟩
    · left
      change Function.update w.handling pid _ q = _ at hHandling
      rwa [Function.update_of_ne hq] at hHandling
  · intro q hSource
    subst he
    cases hSource
    exact ⟨r, m, hSelf, rfl⟩
  · intro b hb
    subst he
    exact h.not_own hNone hb
  · intro k hSource
    subst he
    cases hSource
  · intro _ r' code hCode hChannel
    by_cases hr : r' = r
    · subst hr
      exact .inr ⟨pid, hSelf, .inl (by rw [he])⟩
    · left
      subst he
      dsimp only at hChannel
      rw [hChannel]
      exact forwarded_stamp hIds hCode hr

theorem posted_direct (h : Inv ids n w) {channel : String} {data : Option Message}
    (he : e = ⟨.direct w.sent.length, channel, data⟩) :
    Posted ids n e w ((w.announce e).enqueue e) := by
  rw [enqueue_eq]
  refine ⟨rfl, rfl, rfl, rfl, fun _ => rfl, ⟨fun _ hm => hm, fun hc => hc, fun hh => hh⟩,
    fun hHandling => .inl hHandling, ?_, ?_, ?_, ?_⟩
  · intro q hSource
    subst he
    cases hSource
  · intro b hb hSource
    subst he
    have := h.direct b hb _ hSource
    omega
  · intro k hSource
    subst he
    cases hSource
    rfl
  · rintro ⟨m, hData, ⟨q, hSource⟩ | hOrigin⟩ r' code hCode hChannel
    · subst he
      cases hSource
    · left
      simp [forwarded, hChannel, roomCodeFromChannel_wsRoom hCode, hData, hOrigin]

theorem tally_receive (w : World) (pid : Nat) (conn c : Conn) (m : Message) (src : Source) :
    tally (w.receive pid conn m) c src =
      tally w c src + if conn = c ∧ (w.handling pid).map (·.2.source) = some src then 1 else 0 := by
  simp only [tally, World.receive, List.countP_append, List.countP_cons, List.countP_nil,
    decide_eq_true_eq, Nat.zero_add]

theorem inv_receive {conn : Conn} {m : Message} (h : Inv ids n w)
    (hTo : Addressed ids w pid r conn m) : Inv ids n (w.receive pid conn m) := by
  refine ⟨h.known, h.rooms, h.nodup, h.sources, h.direct, h.broadcast, h.audience, h.inbox,
    h.handling, h.waiting, h.taken, h.unique, ?_, h.arrives⟩
  intro x hx
  obtain hOld | hNew := List.mem_append.mp hx
  · exact h.received x hOld
  · obtain rfl := List.mem_singleton.mp hNew
    obtain ⟨e, room, d, hCarries, hKnown, hChannel, hData, rfl⟩ := hTo
    refine ⟨_, hKnown, rfl, pid, e, d, hCarries, ?_, hChannel, hData, rfl⟩
    dsimp only
    rw [hCarries.1]
    rfl

theorem rely_receive {conn : Conn} {m : Message} (h : Inv ids n w)
    (hTo : Addressed ids w pid r conn m) (hq : q ≠ pid) : Rely ids q w (w.receive pid conn m) where
  handling := rfl
  sent _ hb := hb
  known _ hm := hm
  fresh _ hm _ _ _ := hm
  registered _ _ hReg := hReg
  received r' e' hCarries' m' hm' hr' := by
    obtain ⟨e, room, d, hCarries, hKnown, -⟩ := hTo
    rw [tally_receive, if_neg, Nat.add_zero]
    rintro ⟨hConn, hSource⟩
    obtain rfl := h.member_unique hKnown hm' hConn
    rw [hCarries.1] at hSource
    subst hr'
    exact hq (h.unique q pid _ e' e hCarries' hCarries (Option.some.inj hSource).symm)

theorem setRoom_rooms (w : World) (r r' : Nat) (room room' : String) (conns : List Conn) :
    (w.setRoom r room conns).rooms r' room' =
      if r' = r ∧ room' = room then conns else w.rooms r' room' := by
  change Function.update w.rooms r _ r' room' = _
  by_cases hr : r' = r
  · subst hr
    rw [Function.update_self]
    by_cases hRoom : room' = room
    · rw [hRoom, Function.update_self, if_pos ⟨rfl, rfl⟩]
    · rw [Function.update_of_ne hRoom, if_neg fun h => hRoom h.2]
  · rw [Function.update_of_ne hr, if_neg fun h => hr h.1]

theorem mem_setRoom {r' : Nat} {room' : String} (h : c ∈ (w.setRoom r room conns).rooms r' room') :
    (r' = r ∧ room' = room ∧ c ∈ conns) ∨ c ∈ w.rooms r' room' := by
  rw [setRoom_rooms] at h
  split at h
  next hEq => exact .inl ⟨hEq.1, hEq.2, h⟩
  · exact .inr h

theorem registered_iff {m : Member} : w.registered m = true ↔ m.conn ∈ w.rooms m.replica m.room := by
  simp [World.registered]

section

variable {m : Member} {known : List Member}

/-- A room changes, and connections may become known that were not. -/
theorem Inv.registry (h : Inv ids n w) (hSub : w.known ⊆ known) (hNodup : (known.map Member.conn).Nodup)
    (hConns : conns.Nodup) (hRooms : ∀ c ∈ conns, ⟨c, m.replica, m.room⟩ ∈ known) :
    Inv ids n { w.setRoom m.replica m.room conns with known := known } := by
  have hOn : Onward ids w { w.setRoom m.replica m.room conns with known := known } :=
    ⟨hSub, fun hc => hc, fun hh => hh⟩
  refine ⟨hNodup, ?_, ?_, h.sources, h.direct, h.broadcast, ?_, h.inbox, h.handling, h.waiting,
    h.taken, h.unique, fun x hx => hOn.delivered (h.received x hx), ?_⟩
  · intro r' room' c' hc'
    obtain ⟨rfl, rfl, hIn⟩ | hOld := mem_setRoom hc'
    · exact hRooms c' hIn
    · exact hSub (h.rooms r' room' c' hOld)
  · intro r' room'
    change ((w.setRoom m.replica m.room conns).rooms r' room').Nodup
    rw [setRoom_rooms]
    split
    · exact hConns
    · exact h.nodup r' room'
  · intro b hb c' hc'
    obtain ⟨m', hm', hConn⟩ := h.audience b hb c' hc'
    exact ⟨m', hSub hm', hConn⟩
  · intro b hb hEligible m' hm' hAud
    obtain ⟨m₀, hm₀, hConn⟩ := h.audience b hb _ hAud
    obtain rfl := List.inj_on_of_nodup_map hNodup (hSub hm₀) hm' hConn
    exact h.arrives b hb hEligible m₀ hm₀ hAud

theorem rely_registry (hSub : w.known ⊆ known) (hNodup : (known.map Member.conn).Nodup)
    (hConns : ∀ m' ∈ w.known, m'.conn ∈ conns → m'.conn ∈ w.rooms m.replica m.room) (q : Nat) :
    Rely ids q w { w.setRoom m.replica m.room conns with known := known } where
  handling := rfl
  sent _ hb := hb
  known := hSub
  fresh m₁ hm₁ m₂ hm₂ hConn := by
    obtain rfl := List.inj_on_of_nodup_map hNodup (hSub hm₂) hm₁ hConn
    exact hm₂
  registered m' hm' hReg := by
    have hIn : m'.conn ∈ (w.setRoom m.replica m.room conns).rooms m'.replica m'.room :=
      registered_iff.mp hReg
    rw [registered_iff]
    obtain ⟨hr, hRoom, hNew⟩ | hOld := mem_setRoom hIn
    · rw [hr, hRoom]
      exact hConns m' hm' hNew
    · exact hOld
  received _ _ _ _ _ _ := rfl

end

section

variable {L : Stream.Outside}

/-- Publishes go through, and so do the writes to the socket of `c`. -/
def smooth (c : Conn) (w : World) (o : Op) (d : Decision) : Bool :=
  match o with
  | .publish _ _ => d.fail = false
  | .send conn _ => conn = c → d.fail = false ∧ c ∉ w.closed
  | _ => true

def reliable (L : Stream.Outside) (ids : Nat → String) (c : Conn) :
    Machine World Op Op.Res Exn Unit Job Decision EnvAction :=
  (fanout L ids).restrict (smooth c) fun _ _ => true

abbrev Runs (L : Stream.Outside) (ids : Nat → String) (c : Conn) (pid : Nat) (t : Job) {α : Type}
    (p : Coro α) (Q : Except Exn α → World → Prop) (w : World) : Prop :=
  wp (reliable L ids c) (contract ids c) pid t p Q w

theorem exec_reliable {t : Job} {o : Op} {d : Decision} {out : Answer o}
    (h : (reliable L ids c).exec w t pid n o d = some out) :
    smooth c w o d = true ∧ exec w t pid n o d = some out := by
  have hIf : (if smooth c w o d then exec w t pid n o d else none) = some out := h
  split at hIf
  next hSmooth => exact ⟨hSmooth, hIf⟩
  · cases hIf

theorem exec_cases {t : Job} {o : Op} {d : Decision} {out : Answer o}
    (h : exec w t pid n o d = some out) (hSmooth : smooth c w o d = true) :
    Quiet w out.shared ∨
    (∃ i e, o = .getMessage ∧ (w.inbox t.replica)[i]? = some e ∧
      out.shared = w.take pid t.replica i e) ∨
    (∃ channel wire e, o = .publish channel wire ∧ e = ⟨.broadcast pid, channel, some wire⟩ ∧
      out.shared = ((w.announce e).handle pid t.replica e).enqueue e) ∨
    ∃ conn m, o = .send conn m ∧ out.shared = w.receive pid conn m := by
  cases o with
  | psubscribe | punsubscribe | close =>
    simp only [exec] at h
    split at h <;> cases h <;> exact .inl ⟨rfl, rfl, rfl, rfl, rfl, rfl⟩
  | members | loop =>
    cases h
    exact .inl ⟨rfl, rfl, rfl, rfl, rfl, rfl⟩
  | getMessage =>
    simp only [exec] at h
    split at h
    · cases h
      exact .inl ⟨rfl, rfl, rfl, rfl, rfl, rfl⟩
    · split at h
      · cases h
        exact .inl ⟨rfl, rfl, rfl, rfl, rfl, rfl⟩
      next i _ =>
        obtain ⟨e, he, rfl⟩ := Option.map_eq_some_iff.mp h
        exact .inr (.inl ⟨i, e, rfl, he, rfl⟩)
  | publish channel wire =>
    have hOk : d.fail = false := by simpa [smooth] using hSmooth
    simp only [exec, hOk, Bool.false_eq_true, if_false] at h
    cases h
    exact .inr (.inr (.inl ⟨channel, wire, _, rfl, rfl, rfl⟩))
  | send conn m =>
    simp only [exec] at h
    split at h
    · cases h
      exact .inl ⟨rfl, rfl, rfl, rfl, rfl, rfl⟩
    · cases h
      exact .inr (.inr (.inr ⟨conn, m, rfl, rfl⟩))

theorem exec_kept (hIds : Function.Injective ids) {t : Job} {o : Op} {d : Decision} {out : Answer o}
    (h : exec w t pid n o d = some out) (hSmooth : smooth c w o d = true) (hInv : Inv ids n w)
    (hNeeds : Needs ids pid t w o) (hLt : pid < n) :
    Inv ids n out.shared ∧ ∀ q, q ≠ pid → Rely ids q w out.shared := by
  obtain hQuiet | ⟨i, e, rfl, he, hOut⟩ | ⟨channel, wire, e, rfl, he, hOut⟩ |
    ⟨conn, m, rfl, hOut⟩ := exec_cases h hSmooth
  · exact ⟨hInv.quiet hQuiet le_rfl, fun q _ => hQuiet.rely q⟩
  · rw [hOut]
    refine ⟨inv_take hInv hNeeds hLt he, fun q hq => ?_⟩
    refine ⟨?_, fun _ hb => hb, fun _ hm => hm, fun _ hm _ _ _ => hm, fun _ _ hReg => hReg,
      fun _ _ _ _ _ _ => rfl⟩
    exact Function.update_of_ne hq _ _
  · obtain ⟨hNone, r, room, m, rfl, rfl, rfl⟩ := hNeeds
    have hPosted := posted_broadcast hIds hInv hNone hLt he
    rw [hOut]
    refine ⟨hInv.posted hPosted, fun q hq => hPosted.rely ?_⟩
    rw [enqueue_eq]
    exact Function.update_of_ne hq _ _
  · rw [hOut]
    exact ⟨inv_receive hInv hNeeds, fun q hq => rely_receive hInv hNeeds hq⟩

theorem env_kept {act : EnvAction} {out : World × Option Job} (h : env w n act = some out)
    (hInv : Inv ids n w) :
    Inv ids n out.1 ∧ ∀ q, Rely ids q w out.1 := by
  cases act with
  | boot r =>
    simp only [env] at h
    split at h
    · cases h
    · cases h
      have hQuiet : Quiet w { w with booted := r :: w.booted } := ⟨rfl, rfl, rfl, rfl, rfl, rfl⟩
      exact ⟨hInv.quiet hQuiet le_rfl, fun q => hQuiet.rely q⟩
  | broadcast r room m =>
    cases h
    exact ⟨hInv, fun q => .refl q w⟩
  | publish channel data =>
    cases h
    have hPosted := posted_direct hInv (e := ⟨.direct w.sent.length, channel, data⟩) rfl
    refine ⟨hInv.posted hPosted, fun q => hPosted.rely ?_⟩
    rw [enqueue_eq]
    rfl
  | connect m =>
    simp only [env] at h
    split at h
    · cases h
    next hFresh =>
      cases h
      have hNew : ∀ m' ∈ w.known, m'.conn ≠ m.conn := by
        intro m' hm' hConn
        exact hFresh (List.any_eq_true.mpr ⟨m', hm', by simp [hConn]⟩)
      have hNodup : ((w.known ++ [m]).map Member.conn).Nodup := by
        rw [List.map_append, List.nodup_append]
        refine ⟨hInv.known, List.nodup_singleton _, ?_⟩
        rintro x hx y hy rfl
        obtain ⟨m', hm', hConn⟩ := List.mem_map.mp hx
        exact hNew m' hm' (hConn.trans (List.mem_singleton.mp hy))
      refine ⟨hInv.registry (List.subset_append_left _ _) hNodup ?_ ?_,
        rely_registry (List.subset_append_left _ _) hNodup ?_⟩
      · rw [List.nodup_append]
        refine ⟨hInv.nodup _ _, List.nodup_singleton _, ?_⟩
        rintro x hx y hy rfl
        exact hNew _ (hInv.rooms _ _ x hx) (List.mem_singleton.mp hy)
      · intro c' hc'
        obtain hOld | hSelf := List.mem_append.mp hc'
        · exact List.mem_append_left _ (hInv.rooms _ _ c' hOld)
        · rw [List.mem_singleton.mp hSelf]
          exact List.mem_append_right _ List.mem_cons_self
      · intro m' hm' hIn
        obtain hOld | hSelf := List.mem_append.mp hIn
        · exact hOld
        · exact absurd (List.mem_singleton.mp hSelf) (hNew m' hm')
  | disconnect m =>
    cases h
    have hFilter : ∀ c' ∈ (w.rooms m.replica m.room).filter (· ≠ m.conn),
        c' ∈ w.rooms m.replica m.room := fun c' hc' => (List.mem_filter.mp hc').1
    exact ⟨hInv.registry (fun _ hm => hm) hInv.known ((hInv.nodup _ _).filter _)
        (fun c' hc' => hInv.rooms _ _ c' (hFilter c' hc')),
      rely_registry (fun _ hm => hm) hInv.known fun m' _ hIn => hFilter _ hIn⟩

section

variable {t : Job} {α β : Type}

theorem Runs.ask {o : Op} {Q : Except Exn o.Res → World → Prop}
    (h : ∀ w₁ n, Rely ids pid w w₁ → Inv ids n w₁ → pid < n → Needs ids pid t w₁ o ∧
      ∀ d out, smooth c w₁ o d = true → exec w₁ t pid n o d = some out → Q out.result out.shared) :
    Runs L ids c pid t (Ws.ask o) Q w := by
  refine wp_perform fun w₁ n hLt hRely hInv => ?_
  obtain ⟨hNeeds, hNext⟩ := h w₁ n hRely hInv hLt
  refine ⟨hNeeds, fun d out hExec => ?_⟩
  obtain ⟨hSmooth, hExec'⟩ := exec_reliable hExec
  exact hNext d out hSmooth hExec'

def Stable (ids : Nat → String) (pid : Nat) (F : World → Prop) : Prop :=
  ∀ {w w'}, Rely ids pid w w' → F w → F w'

def Op.idle : Op → Bool
  | .getMessage | .publish _ _ | .send _ _ => false
  | _ => true

theorem exec_idle {t : Job} {o : Op} {d : Decision} {out : Answer o} (ho : o.idle = true)
    (h : exec w t pid n o d = some out) (hSmooth : smooth c w o d = true) : Quiet w out.shared := by
  obtain hQuiet | ⟨i, e, rfl, -⟩ | ⟨channel, wire, e, rfl, -⟩ | ⟨conn, m, rfl, -⟩ :=
    exec_cases h hSmooth
  · exact hQuiet
  · cases ho
  · cases ho
  · cases ho

theorem Runs.keep {o : Op} {F : World → Prop} (hF : Stable ids pid F) (h : F w)
    (ho : o.idle = true) : Runs L ids c pid t (Ws.ask o) (fun _ w' => F w') w := by
  have hNeeds : ∀ w₁, Needs ids pid t w₁ o := by
    intro w₁
    cases o <;> first | exact trivial | cases ho
  refine Runs.ask fun w₁ n hRely _ _ => ⟨hNeeds w₁, fun d out hSmooth hExec => ?_⟩
  exact hF ((exec_idle ho hExec hSmooth).rely pid) (hF hRely h)

theorem runs_bind {p : Coro α} {f : α → Coro β} {P : World → Prop} {Q : Except Exn β → World → Prop}
    (h : Runs L ids c pid t p (fun _ w' => P w') w)
    (hNext : ∀ a w', P w' → Runs L ids c pid t (f a) Q w')
    (hError : ∀ e w', P w' → Q (.error e) w') : Runs L ids c pid t (p >>= f) Q w := by
  refine wp_bind (wp_mono h fun r s hs => ?_)
  cases r with
  | ok a => exact hNext a s hs
  | error e => exact hError e s hs

theorem runs_caught {p : Coro Unit} {f : Unit → Coro β} {P : World → Prop}
    {Q : Except Exn β → World → Prop} (h : Runs L ids c pid t p (fun _ w' => P w') w)
    (hNext : ∀ w', P w' → Runs L ids c pid t (f ()) Q w') :
    Runs L ids c pid t (caught p >>= f) Q w := by
  refine wp_bind (wp_handle (wp_mono h fun r s hs => ?_))
  cases r <;> exact hNext s hs

theorem owes_stable {left : Nat} : Stable ids pid (Owes ids c pid r room b left) :=
  fun hRely h => h.rely hRely

theorem ended_stable : Stable ids pid (Ended ids c pid) := fun hRely h => h.rely hRely

theorem Owes.ended (h : Owes ids c pid r room b 0 w) : Ended ids c pid w := by
  intro r' e' hCarries
  have hSame := hCarries.1.symm.trans h.carries.1
  cases hSame
  exact ⟨room, b, rfl, h⟩

theorem runs_sendAll {m : Message} (hData : ∃ d, b.entry.data = some d ∧ m = d.clean)
    (h : Owes ids c pid t.replica room b (conns.count c) w)
    (hKnown : ∀ conn ∈ conns, ⟨conn, t.replica, room⟩ ∈ w.known) :
    Runs L ids c pid t (sendAll m conns) (fun _ w' => Owes ids c pid t.replica room b 0 w') w := by
  induction conns generalizing w with
  | nil => exact h
  | cons conn conns ih =>
    refine wp_bind (Runs.ask fun w₁ n hRely hInv _ => ?_)
    have h₁ := h.rely hRely
    have hKnown₁ : ∀ conn' ∈ conn :: conns, ⟨conn', t.replica, room⟩ ∈ w₁.known :=
      fun conn' hConn' => hRely.known (hKnown conn' hConn')
    obtain ⟨dict, hDict, hClean⟩ := hData
    refine ⟨⟨b.entry, room, dict, h₁.carries, hKnown₁ conn List.mem_cons_self, h₁.channel, hDict,
      hClean⟩, fun d out hSmooth hExec => ?_⟩
    have hNext : ∃ ok, out.result = .ok ok ∧
        Owes ids c pid t.replica room b (conns.count c) out.shared ∧ out.shared.known = w₁.known := by
      simp only [exec] at hExec
      split at hExec
      next hBroken =>
        cases hExec
        have hOther : conn ≠ c := by
          rintro rfl
          obtain ⟨hOk, hOpen⟩ := of_decide_eq_true hSmooth rfl
          simp [hOk, hOpen] at hBroken
        rw [List.count_cons_of_ne hOther] at h₁
        exact ⟨false, rfl, h₁, rfl⟩
      · cases hExec
        refine ⟨true, rfl, ⟨h₁.sent, h₁.audience, h₁.carries, h₁.channel, fun hc hMember hReg => ?_⟩, rfl⟩
        have hDue := h₁.due hc hMember hReg
        rw [tally_receive, h₁.carries.1]
        by_cases hConn : conn = c
        · subst hConn
          rw [List.count_cons_self] at hDue
          simp only [Option.map_some, and_self, if_true]
          omega
        · rw [List.count_cons_of_ne hConn] at hDue
          rw [if_neg fun hBoth => hConn hBoth.1]
          omega
    obtain ⟨ok, hResult, hOwes, hSame⟩ := hNext
    rw [hResult]
    refine runs_bind (ih hOwes fun conn' hConn' => ?_) (fun _ _ h' => h') (fun _ _ h' => h')
    rw [hSame]
    exact hKnown₁ conn' (List.mem_cons_of_mem _ hConn')

theorem runs_closeEach {F : World → Prop} (hF : Stable ids pid F) (h : F w) (target : Int)
    (conns : List Conn) :
    Runs L ids c pid t (closeEach target conns) (fun _ w' => F w') w := by
  induction conns generalizing w with
  | nil => exact h
  | cons conn conns ih =>
    unfold closeEach
    split
    · exact runs_caught (Runs.keep hF h rfl) fun _ h' => ih h'
    · exact ih h

theorem runs_closeKicked {F : World → Prop} (hF : Stable ids pid F) (h : F w) (room : String)
    (m : Message) : Runs L ids c pid t (closeKicked L room m) (fun _ w' => F w') w := by
  unfold closeKicked
  split
  · split
    · exact runs_bind (Runs.keep hF h rfl) (fun _ _ h' => runs_closeEach hF h' _ _) (fun _ _ h' => h')
    · exact h
    · exact h
  · exact h

theorem runs_broadcastLocal {m : Message} (hData : ∃ d, b.entry.data = some d ∧ m.clean = d.clean)
    (h : Owes ids c pid t.replica room b 1 w) :
    Runs L ids c pid t (broadcastLocal L room m) (fun _ w' => Ended ids c pid w') w := by
  refine wp_bind (Runs.ask fun w₁ n hRely hInv _ => ⟨trivial, fun d out _ hExec => ?_⟩)
  cases hExec
  have h₁ := h.rely hRely
  have hPerm : (w₁.membersIn t.replica room d.order).Perm (w₁.rooms t.replica room) :=
    List.perm_insertionSort _ _
  have hOwes : Owes ids c pid t.replica room b ((w₁.membersIn t.replica room d.order).count c) w₁ := by
    refine ⟨h₁.sent, h₁.audience, h₁.carries, h₁.channel, fun hc hMember hReg => ?_⟩
    have hOne : (w₁.membersIn t.replica room d.order).count c = 1 := by
      rw [hPerm.count_eq]
      exact List.count_eq_one_of_mem (hInv.nodup _ _) (registered_iff.mp hReg)
    rw [hOne]
    exact h₁.due hc hMember hReg
  change Runs L ids c pid t _ _ w₁
  dsimp only
  split
  next hNone =>
    rw [hNone] at hOwes
    exact hOwes.ended
  · refine runs_bind (runs_sendAll hData hOwes fun conn hConn => ?_) (fun n w' h' => ?_)
      fun _ _ h' => h'.ended
    · exact hInv.rooms _ _ conn (hPerm.mem_iff.mp hConn)
    · split
      · exact runs_bind (runs_closeKicked owes_stable h' _ _) (fun _ _ h'' => h''.ended)
          fun _ _ h'' => h''.ended
      · exact h'.ended

theorem Inv.no_receipt (h : Inv ids n w) {src : Source}
    (hNone : ∀ q e', Carries ids w q r e' → e'.source ≠ src) (hKnown : ⟨c, r, room⟩ ∈ w.known) :
    tally w c src = 0 := by
  refine List.countP_eq_zero.mpr fun x hx hHit => ?_
  obtain ⟨hConn, hSource⟩ := of_decide_eq_true hHit
  obtain ⟨m, hm, hConn', q, e', d, hCarries, hSource', -⟩ := h.received x hx
  obtain rfl := h.member_unique hm hKnown (hConn'.trans hConn)
  exact hNone q e' hCarries (Option.some.inj (hSource'.symm.trans hSource))

theorem Posted.owes (h : Posted ids n e w w') (hInv : Inv ids n w) (hChannel : e.channel = wsRoom room)
    (hCarries : Carries ids w' pid r e) : Owes ids c pid r room ⟨e, w.audience⟩ 1 w' := by
  refine ⟨h.mem_last, (hInv.posted h).audience _ h.mem_last c, hCarries, hChannel, fun _ hKnown _ => ?_⟩
  rw [h.known] at hKnown
  have hZero : tally w c e.source = 0 := by
    refine hInv.no_receipt (fun q e' hOld => ?_) hKnown
    obtain ⟨-, b', hb', rfl⟩ := hInv.handling q r e' hOld.1
    exact h.fresh b' hb'
  rw [tally, h.received]
  exact Nat.add_eq_right.mpr hZero

theorem runs_broadcastAll (hIds : Function.Injective ids) {m : Message}
    (hNone : w.handling pid = none) :
    Runs L ids c pid (.broadcastAll r room m) (broadcastAll L ids r room m)
      (fun _ w' => Ended ids c pid w') w := by
  refine runs_caught (P := fun w' => ∃ b, Owes ids c pid r room b 1 w' ∧
    b.entry.data = some (stamp ids r m)) (Runs.ask fun w₁ n hRely hInv hLt => ?_) ?_
  · have hNone₁ : w₁.handling pid = none := hRely.handling.trans hNone
    refine ⟨⟨hNone₁, r, room, m, rfl, rfl, rfl⟩, fun d out hSmooth hExec => ?_⟩
    have hOk : d.fail = false := of_decide_eq_true hSmooth
    simp only [exec, hOk, Bool.false_eq_true, if_false] at hExec
    cases hExec
    have hPosted := posted_broadcast (r := r)
      (e := ⟨.broadcast pid, wsRoom room, some (stamp ids r m)⟩) hIds hInv hNone₁ hLt rfl
    refine ⟨_, hPosted.owes hInv rfl ⟨?_, .inl rfl⟩, rfl⟩
    rw [enqueue_eq]
    exact Function.update_self _ _ _
  · rintro w' ⟨b, hOwes, hData⟩
    refine runs_bind (runs_broadcastLocal ⟨_, hData, ?_⟩ hOwes) (fun _ _ h' => h') (fun _ _ h' => h')
    exact (Message.clean_insert m _).symm

theorem runs_leave {e : Exn} (h : Ended ids c pid w) :
    Runs L ids c pid t (leave e) (fun _ w' => Ended ids c pid w') w :=
  runs_caught (Runs.keep ended_stable h rfl) fun _ h' => h'

theorem runs_guarded {p : Coro Unit} (h : Runs L ids c pid t p (fun _ w' => Ended ids c pid w') w) :
    Runs L ids c pid t (p.handle leave) (fun _ w' => Ended ids c pid w') w := by
  refine wp_handle (wp_mono h fun r s hs => ?_)
  cases r with
  | ok _ => exact hs
  | error e => exact runs_leave hs

theorem ended_of_none (h : w.handling pid = none) : Ended ids c pid w := by
  refine ended_idle fun r e hCarries => ?_
  rw [hCarries.1] at h
  cases h

theorem runs_subscribe (hNone : w.handling pid = none) :
    Runs L ids c pid t subscribe (fun _ w' => Ended ids c pid w') w :=
  runs_guarded (runs_bind (Runs.keep ended_stable (ended_of_none hNone) rfl)
    (fun _ _ h => Runs.keep ended_stable h rfl) fun _ _ h => h)

theorem forwarded_iff : forwarded ids r e = true ↔
    ∃ code m, roomCodeFromChannel e.channel = some code ∧ e.data = some m ∧
      m.lookup originField ≠ some (.plain (.str (ids r))) := by
  cases hData : e.data <;> simp [forwarded, Option.isSome_iff_exists, hData]

theorem runs_dispatchOne {i : Nat} (hInv : Inv ids n w) (hNone : w.handling pid = none)
    (hi : (w.inbox r)[i]? = some e) :
    Runs L ids c pid (.listen r) (dispatchOne L ids r e.channel e.data)
      (fun _ w' => Ended ids c pid w') (w.take pid r i e) := by
  have hMem : e ∈ w.inbox r := List.mem_of_getElem? hi
  obtain ⟨b, hb, rfl⟩ := hInv.inbox r e hMem
  have hSelf : (w.take pid r i b.entry).handling pid = some (r, b.entry) := Function.update_self _ _ _
  have hDropped : ¬forwarded ids r b.entry = true → Ended ids c pid (w.take pid r i b.entry) := by
    intro hNot
    refine ended_idle fun r' e' hCarries => ?_
    have hSame := hCarries.1.symm.trans hSelf
    cases hSame
    obtain hOwn | hForwarded := hCarries.2
    · exact hInv.not_own hNone hb hOwn
    · exact hNot hForwarded
  unfold dispatchOne
  split
  next code hCode =>
    split
    next payload hData =>
      split
      next hOrigin => 
        refine hDropped fun hForwarded => ?_
        obtain ⟨_, m, -, hData', hOther⟩ := forwarded_iff.mp hForwarded
        rw [hData] at hData'
        cases hData'
        exact hOther hOrigin
      next hOrigin =>
        have hForwarded : forwarded ids r b.entry = true :=
          forwarded_iff.mpr ⟨code, payload, hCode, hData, hOrigin⟩
        have hOwes : Owes ids c pid r code b 1 (w.take pid r i b.entry) := by
          refine ⟨hb, hInv.audience b hb c, ⟨hSelf, .inr hForwarded⟩, eq_wsRoom hCode, ?_⟩
          intro _ hKnown _
          have hZero : tally w c b.entry.source = 0 := hInv.no_receipt
            (fun q e' hOld => (hInv.taken q r e' hOld b.entry hMem hForwarded).symm) hKnown
          exact Nat.add_eq_right.mpr hZero
        exact runs_bind (runs_broadcastLocal ⟨payload, hData, rfl⟩ hOwes) (fun _ _ h' => h')
          fun _ _ h' => h'
    next hData =>
      refine hDropped fun hForwarded => ?_
      obtain ⟨_, m, -, hData', -⟩ := forwarded_iff.mp hForwarded
      exact hData m hData'
  next hCode =>
    refine hDropped fun hForwarded => ?_
    obtain ⟨code, _, hCode', -⟩ := forwarded_iff.mp hForwarded
    exact hCode code hCode'

theorem runs_listen (hNone : w.handling pid = none) :
    Runs L ids c pid (.listen r) (listen L ids r) (fun _ w' => Ended ids c pid w') w := by
  refine runs_guarded (wp_bind (Runs.ask fun w₁ n hRely hInv _ => ?_))
  have hNone₁ : w₁.handling pid = none := hRely.handling.trans hNone
  refine ⟨hNone₁, fun d out _ hExec => ?_⟩
  simp only [exec] at hExec
  split at hExec
  · cases hExec
    exact ended_of_none hNone₁
  · split at hExec
    · cases hExec
      exact Runs.keep ended_stable (ended_of_none hNone₁) rfl
    next i _ =>
      obtain ⟨e, he, rfl⟩ := Option.map_eq_some_iff.mp hExec
      exact runs_caught (runs_dispatchOne hInv hNone₁ he) fun _ h' =>
        Runs.keep ended_stable h' rfl

theorem runs_body (hIds : Function.Injective ids) (t : Job) (hNone : w.handling pid = none) :
    Runs L ids c pid t ((reliable L ids c).body t) ((contract ids c).post pid t) w := by
  cases t with
  | subscribe r => exact runs_subscribe hNone
  | listen r => exact runs_listen hNone
  | broadcastAll r room m => exact runs_broadcastAll hIds hNone

theorem Inv.idle (h : Inv ids n w) : w.handling n = none := by
  cases hHandling : w.handling n with
  | none => rfl
  | some x =>
    have := (h.handling n x.1 x.2 hHandling).1
    omega

theorem sound (hIds : Function.Injective ids) : Sound (reliable L ids c) (contract ids c) where
  rely_trans _ _ _ _ := Rely.trans
  rely_refl _ := Rely.refl _
  post_rely _ _ _ _ _ h hRely := h.rely hRely
  exec w t pid n o d out hInv hNeeds hLt hExec := by
    obtain ⟨hSmooth, hExec'⟩ := exec_reliable hExec
    obtain ⟨hKept, hRely⟩ := exec_kept hIds hExec' hSmooth hInv hNeeds hLt
    refine ⟨hKept.quiet ⟨rfl, rfl, rfl, rfl, rfl, rfl⟩ (Nat.le_add_right _ _),
      fun q _ hq => hRely q hq, fun t' _ => runs_body hIds t' hKept.idle⟩
  env w n act out hInv hEnv := by
    obtain ⟨hKept, hRely⟩ := env_kept hEnv hInv
    refine ⟨hKept.quiet ⟨rfl, rfl, rfl, rfl, rfl, rfl⟩ (Nat.le_add_right _ _),
      fun q _ => hRely q, fun t' _ => runs_body hIds t' hKept.idle⟩

theorem kept_blank : Kept (reliable L ids c) (contract ids c) blank := by
  have hNone : ∀ pid r e, ¬Carries ids blank.shared pid r e := by
    rintro pid r e ⟨hHandling, -⟩
    cases hHandling
  refine ⟨⟨List.nodup_nil, ?_, fun _ _ => List.nodup_nil, List.nodup_nil, ?_, ?_, ?_, ?_, ?_,
    fun _ => List.nodup_nil, ?_, ?_, ?_, ?_⟩, ?_⟩
  · rintro r room c ⟨⟩
  · rintro b ⟨⟩
  · rintro b ⟨⟩
  · rintro b ⟨⟩
  · rintro r e ⟨⟩
  · rintro pid r e ⟨⟩
  · exact fun pid r e h => absurd h (hNone pid r e)
  · exact fun pid q r e e' h => absurd h (hNone pid r e)
  · rintro x ⟨⟩
  · rintro b ⟨⟩
  · rintro pid p ⟨⟩

end

end

end

end LiveQuiz.Ws
