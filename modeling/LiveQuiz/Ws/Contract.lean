import LiveQuiz.Ws.Service
import LiveQuiz.Lib.Contract

/-! # The contract of the fan-out

A message that was sent is, for each replica of its audience, in one place: it waits in
the replica's inbox, or one program passes it on. What the others leave alone between two
calls of that program is what the program has delivered so far.
-/

namespace LiveQuiz.Ws

open Coroutine

set_option autoImplicit false

theorem wsRoom_toList (code : String) :
    (wsRoom code).toList = ['w', 's', ':', 'r', 'o', 'o', 'm', ':'] ++ code.toList := by
  rw [wsRoom, String.toList_append]
  rfl

theorem matchesPattern_wsRoom (code : String) : matchesPattern (wsRoom code) = true := by
  rw [matchesPattern, wsRoom_toList]
  simp

theorem splitColons_wsRoom (code : String) :
    splitColons 2 (wsRoom code).toList = ["ws".toList, "room".toList, code.toList] := by
  rw [wsRoom_toList]
  simp [splitColons]

theorem roomCodeFromChannel_wsRoom {code : String} (h : code ≠ "") :
    roomCodeFromChannel (wsRoom code) = some code := by
  have hChars : code.toList ≠ [] := by simpa using h
  simp only [roomCodeFromChannel, splitColons_wsRoom]
  rw [if_pos ⟨trivial, trivial, hChars⟩, String.ofList_toList]

theorem split_at_colon {cs rest : List Char} {x : Char} (h : cs.dropWhile (· ≠ ':') = x :: rest) :
    cs = cs.takeWhile (· ≠ ':') ++ ':' :: rest := by
  have hHead : x = ':' := by
    have := List.head?_dropWhile_not (· ≠ ':') cs
    rw [h] at this
    simpa using this
  have hAll := List.takeWhile_append_dropWhile (p := (· ≠ ':')) (l := cs)
  rw [h, hHead] at hAll
  exact hAll.symm

theorem splitColons_succ {n : Nat} {cs : List Char} {a b : List Char} {parts : List (List Char)}
    (h : splitColons (n + 1) cs = a :: b :: parts) :
    ∃ rest, cs = a ++ ':' :: rest ∧ splitColons n rest = b :: parts := by
  simp only [splitColons] at h
  split at h
  · cases h
  next x rest hRest =>
    obtain ⟨hFirst, hTail⟩ := List.cons.inj h
    refine ⟨rest, ?_, hTail⟩
    rw [← hFirst]
    exact split_at_colon hRest

theorem eq_wsRoom {channel code : String} (h : roomCodeFromChannel channel = some code) :
    channel = wsRoom code := by
  simp only [roomCodeFromChannel] at h
  split at h
  next ws room code' hSplit =>
    split at h
    next hParts =>
      obtain ⟨hWs, hRoom, -⟩ := hParts
      obtain ⟨rest, hChars, hRest⟩ := splitColons_succ hSplit
      obtain ⟨rest', hChars', hRest'⟩ := splitColons_succ hRest
      cases hRest'
      have hCode : code.toList = code' := by
        rw [← Option.some.inj h, String.toList_ofList]
      apply String.toList_injective
      rw [wsRoom_toList, hChars, hChars', hWs, hRoom, hCode]
      rfl
    · cases h
  · cases h

theorem wsRoom_injective : Function.Injective wsRoom := by
  intro a b h
  have hChars := congrArg String.toList h
  rw [wsRoom_toList, wsRoom_toList] at hChars
  exact String.toList_injective (List.append_cancel_left hChars)

namespace Message

theorem lookup_insert (m : Message) (key : String) (value : Value) :
    (m.insert key value).lookup key = some value := by
  induction m with
  | nil => simp [insert]
  | cons item m ih =>
    obtain ⟨k, v⟩ := item
    by_cases hk : k = key
    · simp [insert, hk]
    · have hk' : (key == k) = false := by simpa using Ne.symm hk
      have hStep : (insert ((k, v) :: m) key value) = (k, v) :: insert m key value := by
        unfold insert
        simp only [List.any_cons, hk, decide_false, Bool.false_or, List.map_cons, if_false]
        split <;> rfl
      rw [hStep, List.lookup_cons, hk']
      exact ih

theorem clean_insert (m : Message) (value : Value) :
    (m.insert originField value).clean = m.clean := by
  unfold insert
  split
  · rw [clean, List.filter_map]
    have hSame : ((fun item : String × Value => decide (item.1 ≠ originField)) ∘
        fun item => if item.1 = originField then (originField, value) else item) =
          fun item => decide (item.1 ≠ originField) := by
      funext item
      by_cases h : item.1 = originField <;> simp [h]
    rw [hSame]
    refine (List.map_congr_left fun item hItem => ?_).trans (List.map_id _)
    have hOther : item.1 ≠ originField := of_decide_eq_true (List.mem_filter.mp hItem).2
    exact if_neg hOther
  · simp [clean, List.filter_append]

theorem not_mem_clean (m : Message) (value : Value) : (originField, value) ∉ m.clean := by
  simp [clean]

end Message
section

variable (ids : Nat → String)

def forwarded (r : Nat) (e : Entry) : Bool :=
  (roomCodeFromChannel e.channel).isSome ∧
    e.data.any fun m => m.lookup originField ≠ some (.plain (.str (ids r)))

/-- The program delivers the message on its replica. -/
def Carries (w : World) (pid r : Nat) (e : Entry) : Prop :=
  w.handling pid = some (r, e) ∧ (e.source = .broadcast pid ∨ forwarded ids r e = true)

def Eligible (e : Entry) : Prop :=
  ∃ m, e.data = some m ∧ ((∃ pid, e.source = .broadcast pid) ∨ m.lookup originField = none)

def tally (w : World) (c : Conn) (src : Source) : Nat :=
  w.received.countP fun x => x.conn = c ∧ x.source = some src

/-- A message that the replica's program `pid` has published. -/
def Own (w : World) (pid : Nat) (e : Entry) : Prop :=
  ∃ r m, w.handling pid = some (r, e) ∧ e.data = some (stamp ids r m)

/-- A receipt of a message for the connection's room. -/
def Delivered (w : World) (x : Receipt) : Prop :=
  ∃ m ∈ w.known, m.conn = x.conn ∧ ∃ pid e d, Carries ids w pid m.replica e ∧
    x.source = some e.source ∧ e.channel = wsRoom m.room ∧ e.data = some d ∧ x.message = d.clean

structure Inv (n : Nat) (w : World) : Prop where
  known : (w.known.map Member.conn).Nodup
  rooms : ∀ r room, ∀ c ∈ w.rooms r room, ⟨c, r, room⟩ ∈ w.known
  nodup : ∀ r room, (w.rooms r room).Nodup
  sources : (w.sent.map (·.entry.source)).Nodup
  direct : ∀ b ∈ w.sent, ∀ k, b.entry.source = .direct k → k < w.sent.length
  broadcast : ∀ b ∈ w.sent, ∀ pid, b.entry.source = .broadcast pid → Own ids w pid b.entry
  audience : ∀ b ∈ w.sent, ∀ c ∈ b.audience, ∃ m ∈ w.known, m.conn = c
  inbox : ∀ r, ∀ e ∈ w.inbox r, ∃ b ∈ w.sent, b.entry = e
  handling : ∀ pid r e, w.handling pid = some (r, e) → pid < n ∧ ∃ b ∈ w.sent, b.entry = e
  waiting : ∀ r, ((w.inbox r).map Entry.source).Nodup
  taken : ∀ pid r e, Carries ids w pid r e →
    ∀ e' ∈ w.inbox r, forwarded ids r e' = true → e'.source ≠ e.source
  unique : ∀ pid q r e e', Carries ids w pid r e → Carries ids w q r e' → e.source = e'.source →
    pid = q
  received : ∀ x ∈ w.received, Delivered ids w x
  arrives : ∀ b ∈ w.sent, Eligible b.entry → ∀ m ∈ w.known, m.conn ∈ b.audience → m.room ≠ "" →
    b.entry.channel = wsRoom m.room →
      (b.entry ∈ w.inbox m.replica ∧ forwarded ids m.replica b.entry = true) ∨
        ∃ pid, Carries ids w pid m.replica b.entry

/-- What the others leave alone between two calls of `pid`. -/
structure Rely (pid : Nat) (w w' : World) : Prop where
  handling : w'.handling pid = w.handling pid
  sent : w.sent ⊆ w'.sent
  known : w.known ⊆ w'.known
  fresh : ∀ m ∈ w'.known, ∀ m' ∈ w.known, m'.conn = m.conn → m ∈ w.known
  registered : ∀ m ∈ w.known, w'.registered m = true → w.registered m = true
  received : ∀ r e, Carries ids w pid r e → ∀ m ∈ w.known, m.replica = r →
    tally w' m.conn e.source = tally w m.conn e.source

def Addressed (w : World) (pid r : Nat) (conn : Conn) (m : Message) : Prop :=
  ∃ e room d, Carries ids w pid r e ∧ ⟨conn, r, room⟩ ∈ w.known ∧ e.channel = wsRoom room ∧
    e.data = some d ∧ m = d.clean

def Needs (pid : Nat) (t : Job) (w : World) : Op → Prop
  | .getMessage => w.handling pid = none
  | .publish channel wire => w.handling pid = none ∧ ∃ r room m, t = .broadcastAll r room m ∧
    channel = wsRoom room ∧ wire = stamp ids r m
  | .send conn m => Addressed ids w pid t.replica conn m
  | _ => True

/-- The program passes on the message `b` to the room, and `left` sends to `c` are to come
if `c` has been there from the start. -/
structure Owes (c : Conn) (pid r : Nat) (room : String) (b : Sent) (left : Nat) (w : World) :
    Prop where
  sent : b ∈ w.sent
  audience : c ∈ b.audience → ∃ m ∈ w.known, m.conn = c
  carries : Carries ids w pid r b.entry
  channel : b.entry.channel = wsRoom room
  due : c ∈ b.audience → ⟨c, r, room⟩ ∈ w.known → w.registered ⟨c, r, room⟩ = true →
    tally w c b.entry.source + left = 1

/-- What the end of a program leaves: a message it has passed on has reached `c`. -/
def Ended (c : Conn) (pid : Nat) (w : World) : Prop :=
  ∀ r e, Carries ids w pid r e → ∃ room b, b.entry = e ∧ Owes ids c pid r room b 0 w

def contract (c : Conn) : Contract World Op Exn Unit Job where
  inv := Inv ids
  rely := Rely ids
  req := Needs ids
  post pid _ _ w := Ended ids c pid w

end

section

variable {ids : Nat → String} {c : Conn} {pid q r n : Nat} {room : String} {b : Sent}
  {w w' w'' : World} {e e' : Entry}

theorem Carries.congr (h : Carries ids w pid r e) (hSame : w'.handling pid = w.handling pid) :
    Carries ids w' pid r e := ⟨hSame.trans h.1, h.2⟩

theorem Rely.refl (pid : Nat) (w : World) : Rely ids pid w w :=
  ⟨rfl, fun _ h => h, fun _ h => h, fun _ h _ _ _ => h, fun _ _ h => h, fun _ _ _ _ _ _ => rfl⟩

theorem Rely.trans (h : Rely ids pid w w') (h' : Rely ids pid w' w'') : Rely ids pid w w'' where
  handling := h'.handling.trans h.handling
  sent _ hb := h'.sent (h.sent hb)
  known _ hm := h'.known (h.known hm)
  fresh m hm m' hm' hConn := h.fresh m (h'.fresh m hm m' (h.known hm') hConn) m' hm' hConn
  registered m hm hReg := h.registered m hm (h'.registered m (h.known hm) hReg)
  received r e hCarries m hm hr :=
    (h'.received r e (hCarries.congr h.handling) m (h.known hm) hr).trans
      (h.received r e hCarries m hm hr)

theorem Owes.rely {left : Nat} (h : Owes ids c pid r room b left w) (hRely : Rely ids pid w w') :
    Owes ids c pid r room b left w' where
  sent := hRely.sent h.sent
  audience hc := by
    obtain ⟨m, hm, hConn⟩ := h.audience hc
    exact ⟨m, hRely.known hm, hConn⟩
  carries := h.carries.congr hRely.handling
  channel := h.channel
  due hc hKnown hReg := by
    obtain ⟨m, hm, hConn⟩ := h.audience hc
    have hKnown' := hRely.fresh _ hKnown m hm hConn
    rw [hRely.received r b.entry h.carries _ hKnown' rfl]
    exact h.due hc hKnown' (hRely.registered _ hKnown' hReg)

theorem Ended.rely (h : Ended ids c pid w) (hRely : Rely ids pid w w') : Ended ids c pid w' := by
  intro r e hCarries
  obtain ⟨room, b, hEntry, hOwes⟩ := h r e (hCarries.congr hRely.handling.symm)
  exact ⟨room, b, hEntry, hOwes.rely hRely⟩

theorem ended_idle (h : ∀ r e, ¬Carries ids w pid r e) : Ended ids c pid w :=
  fun r e hCarries => absurd hCarries (h r e)

end

end LiveQuiz.Ws
