import LiveQuiz.Lobby.Steps

/-! # What the requests on a room keep

The rows of a room only grow: rooms and participants are added and keep their keys, a room
never returns to its lobby, and a match keeps its room. A snapshot that was made of rows once
is made of rows ever after.
-/

namespace LiveQuiz.Lobby

open Coroutine

set_option autoImplicit false

section

variable {ρ : Type} {key : ρ → Int} {rows rows' : List ρ}

theorem sortBy_sublist (h : rows.Sublist rows') : (sortBy key rows).Sublist (sortBy key rows') := by
  have hTotal : Std.Total fun a b : ρ => key a ≤ key b := ⟨fun a b => le_total _ _⟩
  have hTrans : IsTrans ρ fun a b => key a ≤ key b := ⟨fun a b c => le_trans⟩
  induction h with
  | slnil => exact List.Sublist.refl _
  | cons a h ih => exact ih.trans (List.sublist_orderedInsert a _)
  | cons_cons a h ih => exact List.Sublist.orderedInsert_sublist a ih (List.pairwise_insertionSort _ _)

theorem sortBy_map {f : ρ → ρ} (hKey : ∀ r, key (f r) = key r) :
    sortBy key (rows.map f) = (sortBy key rows).map f := by
  refine (List.map_insertionSort _ _ f rows fun a _ b _ => ?_).symm
  rw [hKey, hKey]

end

namespace World

/-- The participants of a room in the order they joined, the kicked ones included. -/
def roster (w : World) (i : Id) : List (Id × String × Bool) :=
  (sortBy Rooms.Participant.joinedAt (w.room.participants.filter (·.roomId = i))).map
    Rooms.participantPayload

def Houses (w : World) (i : Id) (code : String) : Prop :=
  ∃ r ∈ w.room.rooms, r.id = i ∧ r.code = code

def Gone (w : World) (i : Id) : Prop := ∃ r ∈ w.room.rooms, r.id = i ∧ r.status ≠ .lobby

def HasMatch (w : World) (m i : Id) : Prop := ∃ row ∈ w.matches', row.id = m ∧ row.roomId = i

def Played (w : World) (m i : Id) : Prop := w.HasMatch m i ∧ w.Gone i

def Kicked (w : World) (i : Id) : Prop := ∃ p ∈ w.room.participants, p.id = i ∧ p.isKicked = true

def Joined (w : World) (i : Id) : Prop := ∃ p ∈ w.room.participants, p.id = i

/-- A snapshot of this room made of rows of the tables. -/
structure Pictures (w : World) (i : Id) (s : Rooms.Snapshot) : Prop where
  houses : w.Houses i s.code
  count : s.playerCount = s.participants.length
  listed : s.participants.Sublist (w.roster i)
  status : s.status = .lobby ∨ w.Gone i
  hasMatch : ∀ m, s.matchBlock = some m → w.HasMatch m.1 i

def Shows (w : World) (code : String) (s : Rooms.Snapshot) : Prop :=
  s.code = code ∧ ∃ i, w.Pictures i s

end World

/-- The tables later on. -/
structure Later (w v : World) : Prop where
  rooms : ∀ r ∈ w.room.rooms, ∃ r' ∈ v.room.rooms, r'.id = r.id ∧ r'.code = r.code ∧
    (r'.status = .lobby → r.status = .lobby)
  roster : ∀ i, (w.roster i).Sublist (v.roster i)
  people : ∀ p ∈ w.room.participants, ∃ p' ∈ v.room.participants, p'.id = p.id ∧
    (p.isKicked = true → p'.isKicked = true)
  matches' : ∀ m ∈ w.matches', ∃ m' ∈ v.matches', m'.id = m.id ∧ m'.roomId = m.roomId

section

variable {w v u : World} {i m : Id} {code : String} {s : Rooms.Snapshot}

theorem World.Houses.later (h : w.Houses i code) (hLater : Later w v) : v.Houses i code := by
  obtain ⟨r, hr, rfl, rfl⟩ := h
  obtain ⟨r', hr', hId, hCode, -⟩ := hLater.rooms r hr
  exact ⟨r', hr', hId, hCode⟩

theorem World.Gone.later (h : w.Gone i) (hLater : Later w v) : v.Gone i := by
  obtain ⟨r, hr, rfl, hNot⟩ := h
  obtain ⟨r', hr', hId, -, hLobby⟩ := hLater.rooms r hr
  exact ⟨r', hr', hId, fun hl => hNot (hLobby hl)⟩

theorem World.HasMatch.later (h : w.HasMatch m i) (hLater : Later w v) : v.HasMatch m i := by
  obtain ⟨row, hRow, rfl, rfl⟩ := h
  obtain ⟨row', hRow', hId, hRoom⟩ := hLater.matches' row hRow
  exact ⟨row', hRow', hId, hRoom⟩

theorem World.Played.later (h : w.Played m i) (hLater : Later w v) : v.Played m i :=
  ⟨h.1.later hLater, h.2.later hLater⟩

theorem World.Kicked.later (h : w.Kicked i) (hLater : Later w v) : v.Kicked i := by
  obtain ⟨p, hp, rfl, hKicked⟩ := h
  obtain ⟨p', hp', hId, hKeeps⟩ := hLater.people p hp
  exact ⟨p', hp', hId, hKeeps hKicked⟩

theorem World.Joined.later (h : w.Joined i) (hLater : Later w v) : v.Joined i := by
  obtain ⟨p, hp, rfl⟩ := h
  obtain ⟨p', hp', hId, -⟩ := hLater.people p hp
  exact ⟨p', hp', hId⟩

theorem World.Pictures.later (h : w.Pictures i s) (hLater : Later w v) : v.Pictures i s :=
  ⟨h.houses.later hLater, h.count, h.listed.trans (hLater.roster i),
    h.status.imp_right fun hGone => hGone.later hLater, fun m hm => (h.hasMatch m hm).later hLater⟩

theorem World.Shows.later (h : w.Shows code s) (hLater : Later w v) : v.Shows code s := by
  obtain ⟨hCode, i, hPictures⟩ := h
  exact ⟨hCode, i, hPictures.later hLater⟩

theorem Later.of_tables (hRooms : v.room.rooms = w.room.rooms)
    (hParts : v.room.participants = w.room.participants) (hMatches : v.matches' = w.matches') :
    Later w v := by
  constructor
  · intro r hr
    exact ⟨r, hRooms ▸ hr, rfl, rfl, id⟩
  · intro i
    rw [World.roster, World.roster, hParts]
  · intro p hp
    exact ⟨p, hParts ▸ hp, rfl, id⟩
  · intro m hm
    exact ⟨m, hMatches ▸ hm, rfl, rfl⟩

theorem Later.refl (w : World) : Later w w := .of_tables rfl rfl rfl

theorem Later.trans (h : Later w v) (h' : Later v u) : Later w u := by
  constructor
  · intro r hr
    obtain ⟨r₁, hr₁, hId₁, hCode₁, hLobby₁⟩ := h.rooms r hr
    obtain ⟨r₂, hr₂, hId₂, hCode₂, hLobby₂⟩ := h'.rooms r₁ hr₁
    exact ⟨r₂, hr₂, hId₂.trans hId₁, hCode₂.trans hCode₁, fun hl => hLobby₁ (hLobby₂ hl)⟩
  · exact fun i => (h.roster i).trans (h'.roster i)
  · intro p hp
    obtain ⟨p₁, hp₁, hId₁, hKicked₁⟩ := h.people p hp
    obtain ⟨p₂, hp₂, hId₂, hKicked₂⟩ := h'.people p₁ hp₁
    exact ⟨p₂, hp₂, hId₂.trans hId₁, fun hk => hKicked₂ (hKicked₁ hk)⟩
  · intro m hm
    obtain ⟨m₁, hm₁, hId₁, hRoom₁⟩ := h.matches' m hm
    obtain ⟨m₂, hm₂, hId₂, hRoom₂⟩ := h'.matches' m₁ hm₁
    exact ⟨m₂, hm₂, hId₂.trans hId₁, hRoom₂.trans hRoom₁⟩

theorem Later.added {rooms : List Rooms.Room} {parts : List Rooms.Participant}
    (hRooms : v.room.rooms = w.room.rooms ++ rooms)
    (hParts : v.room.participants = w.room.participants ++ parts) (hMatches : v.matches' = w.matches') :
    Later w v := by
  constructor
  · intro r hr
    exact ⟨r, hRooms ▸ List.mem_append_left _ hr, rfl, rfl, id⟩
  · intro i
    rw [World.roster, World.roster, hParts, List.filter_append]
    exact (sortBy_sublist (List.sublist_append_left _ _)).map _
  · intro p hp
    exact ⟨p, hParts ▸ List.mem_append_left _ hp, rfl, id⟩
  · intro m hm
    exact ⟨m, hMatches ▸ hm, rfl, rfl⟩

def HostWrite.onRow : HostWrite → Rooms.Write → Rooms.Write
  | .setRoom i st, .room r => .room (if r.id = i then { r with status := st } else r)
  | .kick i, .participant p => .participant (if p.id = i then { p with isKicked := true } else p)
  | _, wr => wr

theorem stored_apply (wr : HostWrite) (w : World) :
    (wr.apply w).room.stored = w.room.stored.map wr.onRow := by
  cases wr <;>
    simp [HostWrite.apply, Rooms.World.stored, updateWhere, HostWrite.onRow, Function.comp_def]

theorem roster_kick (w : World) (j i : Id) : ((HostWrite.kick j).apply w).roster i = w.roster i := by
  have hFilter : ((HostWrite.kick j).apply w).room.participants.filter (·.roomId = i) =
      (w.room.participants.filter (·.roomId = i)).map
        fun p => if p.id = j then { p with isKicked := true } else p := by
    change (List.map _ _).filter _ = _
    rw [List.filter_map]
    congr 2
    funext p
    simp only [Function.comp_apply]
    split <;> rfl
  rw [World.roster, hFilter, sortBy_map, List.map_map, World.roster]
  · refine List.map_congr_left fun p _ => ?_
    simp only [Function.comp_apply]
    split <;> rfl
  · intro p
    split <;> rfl

theorem HostWrite.later {wr : HostWrite} (hNot : ∀ i st, wr = .setRoom i st → st ≠ .lobby) (w : World) :
    Later w (wr.apply w) := by
  have hSame := Later.refl w
  cases wr with
  | insertMatch row =>
    refine ⟨hSame.rooms, hSame.roster, hSame.people, fun m hm => ?_⟩
    exact ⟨m, List.mem_append_left _ hm, rfl, rfl⟩
  | setMatch j st =>
    refine ⟨hSame.rooms, hSame.roster, hSame.people, fun m hm => ?_⟩
    by_cases hj : m.id = j
    · exact ⟨_, mem_updateWhere_of_eq hm hj, rfl, rfl⟩
    · exact ⟨m, mem_updateWhere_of_ne hm hj, rfl, rfl⟩
  | setRoom j st =>
    refine ⟨fun r hr => ?_, hSame.roster, hSame.people, hSame.matches'⟩
    by_cases hj : r.id = j
    · exact ⟨_, mem_updateWhere_of_eq hr hj, rfl, rfl, fun hl => absurd hl (hNot j st rfl)⟩
    · exact ⟨r, mem_updateWhere_of_ne hr hj, rfl, rfl, id⟩
  | kick j =>
    refine ⟨hSame.rooms, fun i => ?_, fun p hp => ?_, hSame.matches'⟩
    · rw [roster_kick]
    · by_cases hj : p.id = j
      · exact ⟨_, mem_updateWhere_of_eq hp hj, rfl, fun _ => rfl⟩
      · exact ⟨p, mem_updateWhere_of_ne hp hj, rfl, id⟩

theorem later_of_mem {ws : List HostWrite} (hNot : ∀ i st, .setRoom i st ∈ ws → st ≠ .lobby) :
    ∀ wr ∈ ws, ∀ w, Later w (wr.apply w) :=
  fun _ hwr w => HostWrite.later (fun i st hEq => hNot i st (hEq ▸ hwr)) w

theorem applyAll_later {ws : List HostWrite} (hNot : ∀ i st, .setRoom i st ∈ ws → st ≠ .lobby)
    (w : World) : Later w (Transactions.applyAll HostWrite.apply ws w) :=
  Transactions.applyAll_keeps (P := Later w)
    (fun wr hwr u hu => hu.trans (later_of_mem hNot wr hwr u)) (Later.refl w)

theorem applyAll_gone {ws : List HostWrite} (hNot : ∀ i st, .setRoom i st ∈ ws → st ≠ .lobby)
    {i : Id} {st : RoomStatus} (hMem : .setRoom i st ∈ ws) (hRoom : w.Houses i code) :
    (Transactions.applyAll HostWrite.apply ws w).Gone i := by
  have hLater := later_of_mem hNot
  refine Transactions.applyAll_gains (P := fun w : World => w.Gone i) (Q := fun w => w.Houses i code) hMem
    (fun u hu => ?_) (fun wr hwr u hu => hu.later (hLater wr hwr u))
    (fun wr hwr u hu => hu.later (hLater wr hwr u)) hRoom
  obtain ⟨r, hr, hId, -⟩ := hu
  exact ⟨_, mem_updateWhere_of_eq hr hId, hId, hNot i st hMem⟩

theorem applyAll_kicked {ws : List HostWrite} (hNot : ∀ i st, .setRoom i st ∈ ws → st ≠ .lobby) {i : Id}
    (hMem : .kick i ∈ ws) (hJoined : w.Joined i) :
    (Transactions.applyAll HostWrite.apply ws w).Kicked i := by
  have hLater := later_of_mem hNot
  refine Transactions.applyAll_gains (P := fun w : World => w.Kicked i) (Q := fun w => w.Joined i) hMem
    (fun u hu => ?_) (fun wr hwr u hu => hu.later (hLater wr hwr u))
    (fun wr hwr u hu => hu.later (hLater wr hwr u)) hJoined
  obtain ⟨p, hp, hId⟩ := hu
  exact ⟨_, mem_updateWhere_of_eq hp hId, hId, rfl⟩

theorem applyAll_matches {ws : List HostWrite} {m : MatchRow}
    (hm : m ∈ (Transactions.applyAll HostWrite.apply ws w).matches') :
    (∃ m' ∈ w.matches', m'.id = m.id ∧ m'.roomId = m.roomId) ∨
      ∃ m', .insertMatch m' ∈ ws ∧ m'.id = m.id ∧ m'.roomId = m.roomId := by
  induction ws generalizing w with
  | nil => exact .inl ⟨m, hm, rfl, rfl⟩
  | cons wr ws ih =>
    obtain ⟨m₁, hm₁, hId, hRoom⟩ | ⟨m₁, hIn, hKeys⟩ := ih hm
    · cases wr with
      | insertMatch row =>
        obtain hOld | hNew := List.mem_append.mp hm₁
        · exact .inl ⟨m₁, hOld, hId, hRoom⟩
        · rw [List.mem_singleton.mp hNew] at hId hRoom
          exact .inr ⟨row, List.mem_cons_self, hId, hRoom⟩
      | setMatch j st =>
        obtain ⟨hOld, -⟩ | ⟨m₀, hOld, -, rfl⟩ := mem_updateWhere.mp hm₁
        · exact .inl ⟨m₁, hOld, hId, hRoom⟩
        · exact .inl ⟨m₀, hOld, hId, hRoom⟩
      | _ => exact .inl ⟨m₁, hm₁, hId, hRoom⟩
    · exact .inr ⟨m₁, List.mem_cons_of_mem _ hIn, hKeys⟩

theorem applyAll_inserted {ws : List HostWrite} (hNot : ∀ i st, .setRoom i st ∈ ws → st ≠ .lobby)
    {row : MatchRow} (hMem : .insertMatch row ∈ ws) :
    (Transactions.applyAll HostWrite.apply ws w).HasMatch row.id row.roomId :=
  Transactions.applyAll_gains (P := fun w : World => w.HasMatch row.id row.roomId) (Q := fun _ => True)
    hMem (fun _ _ => ⟨row, List.mem_append_right _ List.mem_cons_self, rfl, rfl⟩)
    (fun _ _ _ _ => trivial) (fun wr hwr u hu => hu.later (later_of_mem hNot wr hwr u)) trivial

end

/-- The rows of all tables, committed or flushed, differ in every unique key; `n` programs have
been started. -/
structure Keyed (lower : String → String) (n : Nat) (w : World) : Prop where
  stored : w.room.stored.Pairwise fun a b => a.collides lower b = false
  fresh : ∀ q, ∀ a ∈ w.room.tx q, ∀ b ∈ w.room.stored, a.collides lower b = false
  own : ∀ q, (w.room.tx q).Pairwise fun a b => a.collides lower b = false
  apart : ∀ p q, p ≠ q → ∀ a ∈ w.room.tx p, ∀ b ∈ w.room.tx q, a.collides lower b = false
  unused : ∀ q, n ≤ q → w.room.tx q = [] ∧ w.tx q = []

section

variable {O : Rooms.Outside} {lower : String → String} {w v : World} {n pid : Nat} {i j : Id}
  {code : String} {a b : Rooms.Write}

theorem collides_comm (a b : Rooms.Write) : a.collides lower b = b.collides lower a := by
  cases a <;> cases b <;> simp [Rooms.Write.collides, eq_comm]

theorem collides_onRow (wr : HostWrite) (a b : Rooms.Write) :
    a.collides lower (wr.onRow b) = a.collides lower b := by
  cases wr <;> cases a <;> cases b <;> simp only [HostWrite.onRow, Rooms.Write.collides] <;>
    split <;> rfl

theorem collides_stamp (w : Rooms.World) (age : Nat) (a b : Rooms.Write) :
    (w.stamp age a).collides lower b = a.collides lower b := by
  cases a <;> cases b <;> rfl

theorem Keyed.houses_inj (h : Keyed lower n w) (hi : w.Houses i code) (hj : w.Houses j code) : i = j := by
  obtain ⟨a, ha, rfl, hCode⟩ := hi
  obtain ⟨b, hb, rfl, rfl⟩ := hj
  have hRooms : w.room.rooms.Pairwise fun a b => (Rooms.Write.room a).collides lower (.room b) = false := by
    have hLeft := (List.pairwise_append.mp (List.pairwise_append.mp (List.pairwise_append.mp h.stored).1).1).1
    exact List.pairwise_map.mp hLeft
  rw [eq_of_pairwise hRooms (fun x y hxy => by rwa [collides_comm]) ha hb]
  simp [Rooms.Write.collides, hCode]

theorem Keyed.congr (h : Keyed lower n w) (hStored : v.room.stored = w.room.stored)
    (hTx : v.room.tx = w.room.tx) (hPending : ∀ q, n ≤ q → v.tx q = []) : Keyed lower n v := by
  refine ⟨?_, ?_, ?_, ?_, fun q hq => ⟨?_, hPending q hq⟩⟩
  · rw [hStored]
    exact h.stored
  · rw [hStored, hTx]
    exact h.fresh
  · rw [hTx]
    exact h.own
  · rw [hTx]
    exact h.apart
  · rw [hTx]
    exact (h.unused q hq).1

theorem Keyed.apply (h : Keyed lower n w) (wr : HostWrite) : Keyed lower n (wr.apply w) := by
  have hTx : (wr.apply w).room.tx = w.room.tx := by cases wr <;> rfl
  have hPending : (wr.apply w).tx = w.tx := by cases wr <;> rfl
  constructor
  · rw [stored_apply, List.pairwise_map]
    refine h.stored.imp fun {a b} hab => ?_
    rw [collides_onRow, collides_comm, collides_onRow, collides_comm]
    exact hab
  · rw [stored_apply, hTx]
    intro q a ha b hb
    obtain ⟨b', hb', rfl⟩ := List.mem_map.mp hb
    rw [collides_onRow]
    exact h.fresh q a ha b' hb'
  · rw [hTx]
    exact h.own
  · rw [hTx]
    exact h.apart
  · rw [hTx, hPending]
    exact h.unused

theorem Keyed.applyAll (h : Keyed lower n w) (ws : List HostWrite) :
    Keyed lower n (Transactions.applyAll HostWrite.apply ws w) :=
  Transactions.applyAll_keeps (P := Keyed lower n) (fun wr _ _ hw => hw.apply wr) h

theorem stored_commit (w : Rooms.World) (pid : Nat) :
    (w.commit pid).stored.Perm (w.stored ++ w.tx pid) := by
  have hFold : ∀ (ws : List Rooms.Write) (u : Rooms.World),
      (Transactions.applyAll Rooms.Write.apply ws u).stored.Perm (u.stored ++ ws) := by
    intro ws
    induction ws with
    | nil => exact fun u => by rw [List.append_nil]; exact List.Perm.refl _
    | cons wr ws ih =>
      intro u
      have hOne : (wr.apply u).stored.Perm (u.stored ++ [wr]) := by
        cases wr with
        | report row => simp [Rooms.Write.apply, Rooms.World.stored]
        | event row =>
          simp only [Rooms.Write.apply, Rooms.World.stored, List.map_append, List.map_cons, List.map_nil,
            List.append_assoc]
          exact ((List.perm_append_comm.append_left _).append_left _).append_left _
        | participant row =>
          simp only [Rooms.Write.apply, Rooms.World.stored, List.map_append, List.map_cons, List.map_nil,
            List.append_assoc]
          refine (List.Perm.append_left _ (List.perm_append_comm.trans ?_)).append_left _
          simp only [List.append_assoc]
          exact List.Perm.refl _
        | room row =>
          simp only [Rooms.Write.apply, Rooms.World.stored, List.map_append, List.map_cons, List.map_nil,
            List.append_assoc]
          refine List.Perm.append_left _ (List.perm_append_comm.trans ?_)
          simp only [List.append_assoc]
          exact List.Perm.refl _
      refine (ih (wr.apply u)).trans ?_
      refine (hOne.append_right ws).trans ?_
      rw [List.append_assoc]
      exact List.Perm.refl _
  exact hFold (w.tx pid) w

theorem commit_snapshot (w : Rooms.World) (pid : Nat) : (w.commit pid).snapshot = w.snapshot := by
  refine Transactions.applyAll_same (g := Rooms.World.snapshot) fun wr _ w => ?_
  cases wr <;> rfl

theorem Keyed.commit (h : Keyed lower n w) (hPending : v.tx = w.tx)
    (hRoom : v.room = w.room.commit pid) : Keyed lower n v := by
  have hTx : v.room.tx = Function.update w.room.tx pid [] := by
    rw [hRoom]
    exact (Rooms.committed w.room pid).tx
  have hStored : v.room.stored.Perm (w.room.stored ++ w.room.tx pid) := by
    rw [hRoom]
    exact stored_commit w.room pid
  have hOpen : ∀ q, ∀ a ∈ v.room.tx q, q ≠ pid ∧ a ∈ w.room.tx q := by
    intro q a ha
    rw [hTx] at ha
    by_cases hq : q = pid
    · subst hq
      rw [Function.update_self] at ha
      cases ha
    · rw [Function.update_of_ne hq] at ha
      exact ⟨hq, ha⟩
  constructor
  · rw [hStored.pairwise_iff fun hab => by rwa [collides_comm], List.pairwise_append]
    refine ⟨h.stored, h.own pid, fun a ha b hb => ?_⟩
    rw [collides_comm]
    exact h.fresh pid b hb a ha
  · intro q a ha b hb
    obtain ⟨hq, ha⟩ := hOpen q a ha
    obtain hb | hb := List.mem_append.mp (hStored.mem_iff.mp hb)
    · exact h.fresh q a ha b hb
    · exact h.apart q pid hq a ha b hb
  · intro q
    rw [hTx]
    by_cases hq : q = pid
    · subst hq
      rw [Function.update_self]
      exact List.Pairwise.nil
    · rw [Function.update_of_ne hq]
      exact h.own q
  · intro p q hpq a ha b hb
    exact h.apart p q hpq a (hOpen p a ha).2 b (hOpen q b hb).2
  · intro q hq
    rw [hTx, hPending]
    by_cases hEq : q = pid
    · subst hEq
      exact ⟨Function.update_self .., (h.unused q hq).2⟩
    · rw [Function.update_of_ne hEq]
      exact h.unused q hq

theorem Keyed.dropped (h : Keyed lower n w) (hStored : v.room.stored = w.room.stored)
    (hTx : v.room.tx = Function.update w.room.tx pid []) (hPending : v.tx = w.tx) :
    Keyed lower n v := by
  have hOpen : ∀ q, ∀ a ∈ v.room.tx q, a ∈ w.room.tx q := by
    intro q a ha
    rw [hTx] at ha
    by_cases hq : q = pid
    · subst hq
      rw [Function.update_self] at ha
      cases ha
    · rwa [Function.update_of_ne hq] at ha
  constructor
  · rw [hStored]
    exact h.stored
  · rw [hStored]
    exact fun q a ha b hb => h.fresh q a (hOpen q a ha) b hb
  · intro q
    rw [hTx]
    by_cases hq : q = pid
    · subst hq
      rw [Function.update_self]
      exact List.Pairwise.nil
    · rw [Function.update_of_ne hq]
      exact h.own q
  · exact fun p q hpq a ha b hb => h.apart p q hpq a (hOpen p a ha) b (hOpen q b hb)
  · intro q hq
    rw [hTx, hPending]
    by_cases hEq : q = pid
    · subst hEq
      exact ⟨Function.update_self .., (h.unused q hq).2⟩
    · rw [Function.update_of_ne hEq]
      exact h.unused q hq

theorem Keyed.flushed (h : Keyed O.lower n w) (hPid : pid < n) {wr : Rooms.Write} {age : Nat}
    (hFree : (w.room.stored ++ w.room.tx pid).any (wr.collides O.lower) = false)
    (hOpen : w.room.blocked O.lower pid n wr = false) (hStored : v.room.stored = w.room.stored)
    (hTx : v.room.tx = Function.update w.room.tx pid (w.room.tx pid ++ [w.room.stamp age wr]))
    (hPending : v.tx = w.tx) : Keyed O.lower n v := by
  have hNew : ∀ b, (w.room.stamp age wr).collides O.lower b = wr.collides O.lower b :=
    collides_stamp w.room age wr
  have hOld : ∀ b ∈ w.room.stored ++ w.room.tx pid, wr.collides O.lower b = false := by
    intro b hb
    simpa using List.any_eq_false.mp hFree b hb
  have hOthers : ∀ q, q ≠ pid → ∀ b ∈ w.room.tx q, wr.collides O.lower b = false := by
    intro q hq b hb
    by_cases hLt : q < n
    · have hNone := List.any_eq_false.mp hOpen q (List.mem_range.mpr hLt)
      have hAny : (w.room.tx q).any (wr.collides O.lower) = false := by simpa [hq] using hNone
      simpa using List.any_eq_false.mp hAny b hb
    · rw [(h.unused q (by omega)).1] at hb
      cases hb
  have hMine : v.room.tx pid = w.room.tx pid ++ [w.room.stamp age wr] := by
    rw [hTx, Function.update_self]
  have hRest : ∀ q, q ≠ pid → v.room.tx q = w.room.tx q := by
    intro q hq
    rw [hTx, Function.update_of_ne hq]
  constructor
  · rw [hStored]
    exact h.stored
  · intro q a ha b hb
    rw [hStored] at hb
    by_cases hq : q = pid
    · subst hq
      rw [hMine] at ha
      obtain ha | ha := List.mem_append.mp ha
      · exact h.fresh q a ha b hb
      · rw [List.mem_singleton.mp ha, hNew]
        exact hOld b (List.mem_append_left _ hb)
    · rw [hRest q hq] at ha
      exact h.fresh q a ha b hb
  · intro q
    by_cases hq : q = pid
    · subst hq
      rw [hMine]
      refine pairwise_concat (h.own q) fun a ha => ?_
      rw [collides_comm, hNew]
      exact hOld a (List.mem_append_right _ ha)
    · rw [hRest q hq]
      exact h.own q
  · have hOne : ∀ q, q ≠ pid → ∀ a ∈ v.room.tx pid, ∀ b ∈ w.room.tx q, a.collides O.lower b = false := by
      intro q hq a ha b hb
      rw [hMine] at ha
      obtain ha | ha := List.mem_append.mp ha
      · exact h.apart pid q (Ne.symm hq) a ha b hb
      · rw [List.mem_singleton.mp ha, hNew]
        exact hOthers q hq b hb
    intro p q hpq a ha b hb
    by_cases hp : p = pid
    · subst hp
      rw [hRest q (Ne.symm hpq)] at hb
      exact hOne q (Ne.symm hpq) a ha b hb
    · rw [hRest p hp] at ha
      by_cases hq : q = pid
      · subst hq
        rw [collides_comm]
        exact hOne p hp b hb a ha
      · rw [hRest q hq] at hb
        exact h.apart p q hpq a ha b hb
  · intro q hq
    rw [hRest q (by omega), hPending]
    exact h.unused q hq

end

/-- What holds of the tables and the cached snapshots in every state. -/
structure Inv (lower : String → String) (n : Nat) (w : World) : Prop where
  keyed : Keyed lower n w
  cached : ∀ c s, w.room.snapshot c = some s → w.Shows c s
  started : ∀ m ∈ w.matches', w.Gone m.roomId
  moves : ∀ q i st, .setRoom i st ∈ w.tx q → st ≠ .lobby

def Rely (pid : Nat) (w v : World) : Prop := Own pid w v ∧ Later w v

/-- A match is inserted together with the status of its room, and a snapshot is written of
committed rows. -/
def Req (pid : Nat) (w : World) : Op → Prop
  | .room (.writeSnapshot c s) => w.Shows c s
  | .flush ws => ∀ i st, .setRoom i st ∈ ws → st ≠ .lobby
  | .commit => ∀ row, .insertMatch row ∈ w.tx pid →
    ∃ st code, .setRoom row.roomId st ∈ w.tx pid ∧ w.Houses row.roomId code
  | _ => True

/-- What the answer to a request says of the tables. -/
def Acknowledges (w : World) : Job → Ret → Prop
  | .room (.createRoom _ _), .room (.created room _) => w.Houses room.id room.code
  | .room (.joinRoom code nickname _ _), .room (.joined r) =>
    r.code = code ∧ r.nickname = nickname ∧ w.Houses r.roomId code ∧
      (r.participantId, nickname, false) ∈ w.roster r.roomId
  | .room (.buildSnapshot code), .room (.snapshot s) => w.Shows code s
  | .startMatch _ code, .hosted m | .pauseMatch _ code, .hosted m | .resumeMatch _ code, .hosted m =>
    w.Played m.id m.roomId ∧ w.Houses m.roomId code
  | .endMatch matchId _, .hosted m => m.id = matchId ∧ w.Played matchId m.roomId
  | .mute _ _, .muted targets => ∀ i ∈ targets, w.Kicked i
  | _, _ => False

def Post (job : Job) (r : Except Exn Ret) (w : World) : Prop := ∀ ret, r = .ok ret → Acknowledges w job ret

def contract (lower : String → String) : Contract World Op Exn Ret Job where
  inv := Inv lower
  rely := Rely
  req pid _ w o := Req pid w o
  post _ := Post

section

variable {O : Rooms.Outside} {w v u : World} {n pid : Nat} {job : Job} {o : Op} {d : Rooms.Decision}
  {out : Answer o}

theorem Acknowledges.later {ret : Ret} (h : Acknowledges w job ret) (hLater : Later w v) :
    Acknowledges v job ret := by
  cases job with
  | room job =>
    cases ret with
    | room ret =>
      cases job with
      | createRoom host payload =>
        cases ret with
        | created room url => exact World.Houses.later h hLater
        | _ => exact h
      | joinRoom code nickname ip user =>
        cases ret with
        | joined r => exact ⟨h.1, h.2.1, h.2.2.1.later hLater, (hLater.roster _).subset h.2.2.2⟩
        | _ => exact h
      | buildSnapshot code =>
        cases ret with
        | snapshot s => exact World.Shows.later h hLater
        | _ => exact h
    | _ => cases job <;> exact h
  | mute roomId userId =>
    cases ret with
    | muted targets => exact fun i hi => (h i hi).later hLater
    | _ => exact h
  | endMatch m host =>
    cases ret with
    | hosted row => exact ⟨h.1, h.2.later hLater⟩
    | _ => exact h
  | _ =>
    cases ret with
    | hosted row => exact ⟨h.1.later hLater, h.2.later hLater⟩
    | _ => exact h

theorem Rely.refl (pid : Nat) (w : World) : Rely pid w w := ⟨Own.refl pid w, Later.refl w⟩

theorem Rely.trans (h : Rely pid w v) (h' : Rely pid v u) : Rely pid w u :=
  ⟨h.1.trans h'.1, h.2.trans h'.2⟩

theorem Post.rely {r : Except Exn Ret} (h : Post job r w) (hRely : Rely pid w v) : Post job r v :=
  fun ret hr => (h ret hr).later hRely.2

theorem Inv.moved {lower : String → String} (h : Inv lower n w) (hLater : Later w v)
    (hKeyed : Keyed lower n v) (hSnap : v.room.snapshot = w.room.snapshot)
    (hMatches : v.matches' = w.matches') (hMoves : ∀ q i st, .setRoom i st ∈ v.tx q → st ≠ .lobby) :
    Inv lower n v := by
  refine ⟨hKeyed, fun c s hs => ?_, fun m hm => ?_, hMoves⟩
  · rw [hSnap] at hs
    exact (h.cached c s hs).later hLater
  · rw [hMatches] at hm
    exact (h.started m hm).later hLater

theorem Inv.idle {lower : String → String} (h : Inv lower n w) (hLater : Later w v)
    (hStored : v.room.stored = w.room.stored) (hTx : v.room.tx = w.room.tx) (hPending : v.tx = w.tx)
    (hSnap : v.room.snapshot = w.room.snapshot) (hMatches : v.matches' = w.matches') : Inv lower n v := by
  refine h.moved hLater (h.keyed.congr hStored hTx fun q hq => ?_) hSnap hMatches ?_
  · rw [hPending]
    exact (h.keyed.unused q hq).2
  · rw [hPending]
    exact h.moves

theorem perform_rows {o : Rooms.Op} {a : Rooms.Answer o} (h : Rooms.perform O w.room pid n o d = some a) :
    ∃ rooms parts, a.shared.rooms = w.room.rooms ++ rooms ∧
      a.shared.participants = w.room.participants ++ parts := by
  by_cases ho : o.seats = false
  · have hSteady := Rooms.perform_steady ho h
    exact ⟨[], [], by rw [hSteady.rooms, List.append_nil], by rw [hSteady.participants, List.append_nil]⟩
  cases o with
  | commit =>
    cases h
    have hC := Rooms.committed w.room pid
    exact ⟨_, _, hC.rooms, hC.participants⟩
  | countInit c m =>
    cases h
    exact ⟨[], [], (List.append_nil _).symm, (List.append_nil _).symm⟩
  | countAdmit c m =>
    cases h
    refine ⟨[], [], ?_, ?_⟩ <;> rw [List.append_nil] <;>
      obtain hEq | ⟨-, hEq⟩ := Rooms.admit_cases w.room pid c m <;> rw [hEq] <;> rfl
  | countRelease c =>
    cases h
    obtain ⟨hRooms, hParts, -⟩ := Rooms.release_rows w.room pid c
    exact ⟨[], [], by rw [hRooms, List.append_nil], by rw [hParts, List.append_nil]⟩
  | _ => exact absurd rfl ho

theorem perform_later (h : perform O w job pid n o d = some out)
    (hNot : ∀ i st, .setRoom i st ∈ w.tx pid → st ≠ .lobby) : Later w out.shared := by
  cases o with
  | room o =>
    obtain ⟨a, ha, rfl⟩ := Option.map_eq_some_iff.mp h
    obtain ⟨rooms, parts, hRooms, hParts⟩ := perform_rows ha
    exact .added hRooms hParts (observe_room w job pid o a.result).2.2.1
  | lockRoom c =>
    obtain ⟨a, ha, rfl⟩ := Option.map_eq_some_iff.mp h
    obtain ⟨-, locks, hEq⟩ := lockRow_eq ha
    exact .of_tables (by rw [hEq]) (by rw [hEq]) (by rw [hEq])
  | lockRoomById i =>
    obtain ⟨a, ha, rfl⟩ := Option.map_eq_some_iff.mp h
    obtain ⟨-, locks, hEq⟩ := lockRow_eq ha
    exact .of_tables (by rw [hEq]) (by rw [hEq]) (by rw [hEq])
  | lockMatch i =>
    obtain ⟨a, ha, rfl⟩ := Option.map_eq_some_iff.mp h
    obtain ⟨-, locks, hEq⟩ := lockRow_eq ha
    exact .of_tables (by rw [hEq]) (by rw [hEq]) (by rw [hEq])
  | flush ws =>
    simp only [perform] at h
    split at h
    · cases h
      exact Later.refl w
    · split at h <;> cases h
      exact .of_tables rfl rfl rfl
  | commit =>
    cases h
    exact (applyAll_later hNot w).trans (.of_tables rfl rfl rfl)
  | _ =>
    cases h
    exact .of_tables rfl rfl rfl

theorem Inv.perform_room {o : Rooms.Op} {a : Rooms.Answer o} (h : Inv O.lower n w) (hPid : pid < n)
    (hReq : Req pid w (.room o)) (ha : Rooms.perform O w.room pid n o d = some a) :
    Inv O.lower n { w.observe job pid o a.result with room := a.shared } := by
  obtain ⟨rooms, parts, hRooms, hParts⟩ := perform_rows ha
  obtain ⟨hPending, -, hMatches, -⟩ := observe_room w job pid o a.result
  have hLater : Later w { w.observe job pid o a.result with room := a.shared } :=
    .added hRooms hParts hMatches
  have hMoves : ∀ q i st, .setRoom i st ∈ (w.observe job pid o a.result).tx q → st ≠ .lobby := by
    rw [hPending]
    exact h.moves
  cases o with
  | flush wr =>
    obtain rfl | ⟨⟨hFree, hOpen⟩, rfl⟩ := Rooms.flushWrite_cases ha
    · exact h.idle hLater rfl rfl hPending rfl hMatches
    · exact h.moved hLater (h.keyed.flushed hPid hFree hOpen rfl rfl hPending) rfl hMatches hMoves
  | commit =>
    cases ha
    exact h.moved hLater (h.keyed.commit hPending rfl) (commit_snapshot w.room pid) hMatches hMoves
  | rollback =>
    cases ha
    exact h.moved hLater (h.keyed.dropped rfl rfl hPending) rfl hMatches hMoves
  | writeSnapshot c s =>
    cases ha
    refine ⟨h.keyed.congr rfl rfl fun q hq => (h.keyed.unused q hq).2, fun c' s' hs => ?_,
      fun m hm => (h.started m hm).later hLater, h.moves⟩
    change Function.update w.room.snapshot c (some s) c' = some s' at hs
    by_cases hc : c' = c
    · subst hc
      rw [Function.update_self] at hs
      cases hs
      exact World.Shows.later hReq hLater
    · rw [Function.update_of_ne hc] at hs
      exact (h.cached c' s' hs).later hLater
  | countAdmit c m =>
    cases ha
    refine h.idle hLater ?_ ?_ hPending ?_ hMatches <;>
      obtain hEq | ⟨-, hEq⟩ := Rooms.admit_cases w.room pid c m <;> rw [hEq] <;> rfl
  | countRelease c =>
    cases ha
    refine h.idle hLater ?_ ?_ hPending ?_ hMatches <;> unfold Rooms.release <;> split <;> rfl
  | _ =>
    cases ha
    exact h.idle hLater rfl rfl hPending rfl hMatches

theorem Inv.commit (h : Inv O.lower n w) (hReq : Req pid w .commit) : Inv O.lower n (w.commit job pid) := by
  have hApplied := applied (w.tx pid) w
  have hLater : Later w (w.commit job pid) :=
    (applyAll_later (h.moves pid) w).trans (.of_tables rfl rfl rfl)
  have hPending : ∀ q, (w.commit job pid).tx q = [] ∨ (w.commit job pid).tx q = w.tx q := by
    intro q
    have hEnd : (w.commit job pid).tx = Function.update w.tx pid [] := by
      rw [← hApplied.pending]
      rfl
    rw [hEnd]
    by_cases hq : q = pid
    · subst hq
      exact .inl (Function.update_self ..)
    · exact .inr (Function.update_of_ne hq _ _)
  refine ⟨(h.keyed.applyAll (w.tx pid)).congr rfl rfl fun q hq => ?_, fun c s hs => ?_, fun m hm => ?_,
    fun q i st hMem => ?_⟩
  · obtain hNil | hOld := hPending q
    · exact hNil
    · rw [hOld]
      exact (h.keyed.unused q hq).2
  · change (Transactions.applyAll HostWrite.apply (w.tx pid) w).room.snapshot c = some s at hs
    rw [hApplied.snapshot] at hs
    exact (h.cached c s hs).later hLater
  · obtain ⟨m', hm', -, hRoom⟩ | ⟨m', hIn, -, hRoom⟩ := applyAll_matches hm
    · rw [← hRoom]
      exact (h.started m' hm').later hLater
    · obtain ⟨st, code, hMem, hHouses⟩ := hReq m' hIn
      rw [← hRoom]
      exact (applyAll_gone (h.moves pid) hMem hHouses).later (.of_tables rfl rfl rfl)
  · obtain hNil | hOld := hPending q
    · rw [hNil] at hMem
      cases hMem
    · rw [hOld] at hMem
      exact h.moves q i st hMem

theorem Inv.perform (h : Inv O.lower n w) (hPid : pid < n) (hReq : Req pid w o)
    (hPerform : perform O w job pid n o d = some out) : Inv O.lower n out.shared := by
  cases o with
  | room o =>
    obtain ⟨a, ha, rfl⟩ := Option.map_eq_some_iff.mp hPerform
    exact h.perform_room hPid hReq ha
  | lockRoom c =>
    obtain ⟨a, ha, rfl⟩ := Option.map_eq_some_iff.mp hPerform
    obtain ⟨-, locks, hEq⟩ := lockRow_eq ha
    refine h.idle (.of_tables ?_ ?_ ?_) ?_ ?_ ?_ ?_ ?_ <;> rw [hEq]
  | lockRoomById i =>
    obtain ⟨a, ha, rfl⟩ := Option.map_eq_some_iff.mp hPerform
    obtain ⟨-, locks, hEq⟩ := lockRow_eq ha
    refine h.idle (.of_tables ?_ ?_ ?_) ?_ ?_ ?_ ?_ ?_ <;> rw [hEq]
  | lockMatch i =>
    obtain ⟨a, ha, rfl⟩ := Option.map_eq_some_iff.mp hPerform
    obtain ⟨-, locks, hEq⟩ := lockRow_eq ha
    refine h.idle (.of_tables ?_ ?_ ?_) ?_ ?_ ?_ ?_ ?_ <;> rw [hEq]
  | flush ws =>
    simp only [Lobby.perform] at hPerform
    split at hPerform
    · cases hPerform
      exact h
    · split at hPerform <;> cases hPerform
      refine h.moved (.of_tables rfl rfl rfl) (h.keyed.congr rfl rfl fun q hq => ?_) rfl rfl
        fun q i st hMem => ?_
      · have hNe : q ≠ pid := by omega
        exact (Function.update_of_ne hNe _ _).trans (h.keyed.unused q hq).2
      · change .setRoom i st ∈ Function.update w.tx pid (w.tx pid ++ ws) q at hMem
        by_cases hq : q = pid
        · subst hq
          rw [Function.update_self] at hMem
          exact (List.mem_append.mp hMem).elim (h.moves q i st) (hReq i st)
        · rw [Function.update_of_ne hq] at hMem
          exact h.moves q i st hMem
  | commit =>
    cases hPerform
    exact h.commit hReq
  | rollback =>
    cases hPerform
    refine h.moved (.of_tables rfl rfl rfl) (h.keyed.congr rfl rfl fun q hq => ?_) rfl rfl
      fun q i st hMem => ?_
    · have hNe : q ≠ pid := by omega
      exact (Function.update_of_ne hNe _ _).trans (h.keyed.unused q hq).2
    · change .setRoom i st ∈ Function.update w.tx pid [] q at hMem
      by_cases hq : q = pid
      · subst hq
        rw [Function.update_self] at hMem
        cases hMem
      · rw [Function.update_of_ne hq] at hMem
        exact h.moves q i st hMem
  | _ =>
    cases hPerform
    exact h

theorem setStage_later (w : World) (pid : Nat) (st : Option Stage) : Later w (w.setStage pid st) :=
  .of_tables rfl rfl rfl

theorem Inv.setStage (h : Inv O.lower n w) (st : Option Stage) : Inv O.lower n (w.setStage pid st) :=
  h.idle (setStage_later w pid st) rfl rfl rfl rfl rfl

theorem exec_later (h : exec O w job pid n o d = some out)
    (hNot : ∀ i st, .setRoom i st ∈ w.tx pid → st ≠ .lobby) : Later w out.shared := by
  obtain ⟨-, hEq⟩ | ⟨a, -, ha, ⟨-, hEq⟩ | ⟨-, hEq⟩⟩ := exec_effect h
  · rw [hEq]
    exact setStage_later w pid none
  · rw [hEq]
    exact perform_later ha hNot
  · rw [hEq]
    exact (perform_later ha hNot).trans (setStage_later _ pid none)

theorem Inv.exec (h : Inv O.lower n w) (hPid : pid < n) (hReq : Req pid w o)
    (hExec : exec O w job pid n o d = some out) : Inv O.lower n out.shared := by
  obtain ⟨-, hEq⟩ | ⟨a, -, ha, ⟨-, hEq⟩ | ⟨-, hEq⟩⟩ := exec_effect hExec
  · rw [hEq]
    exact h.setStage none
  · rw [hEq]
    exact h.perform hPid hReq ha
  · rw [hEq]
    exact (h.perform hPid hReq ha).setStage none

theorem Inv.env {e : EnvAction} {res : World × Option Job} (h : Inv O.lower n w)
    (hEnv : env w n e = some res) : Later w res.1 ∧ Inv O.lower n res.1 := by
  obtain ⟨hRooms, hParts, hTx, hPending, -, -, hMatches⟩ := env_rooms hEnv
  have hLater : Later w res.1 := .of_tables hRooms hParts hMatches
  refine ⟨hLater, ?_⟩
  cases e with
  | expire c =>
    cases hEnv
    refine ⟨h.keyed.congr rfl rfl fun q hq => (h.keyed.unused q hq).2, fun c' s hs => ?_,
      fun m hm => (h.started m hm).later hLater, h.moves⟩
    change Function.update w.room.snapshot c none c' = some s at hs
    by_cases hc : c' = c
    · subst hc
      rw [Function.update_self] at hs
      cases hs
    · rw [Function.update_of_ne hc] at hs
      exact (h.cached c' s hs).later hLater
  | _ =>
    cases hEnv
    exact h.idle hLater rfl rfl rfl rfl rfl

end

end LiveQuiz.Lobby
