import LiveQuiz.Hooks.Run
import LiveQuiz.Lib.Layer
import LiveQuiz.Service.HostControls

/-! # The nickname hash under the hooks

The start of a match writes the nicknames and then drops them with the old leaderboard. A
hook raises the score of its participant first and writes the name two commands later, and
the names of a broadcast are those that stood in the hash at its one HMGET.
-/

namespace LiveQuiz.Hooks

open Coroutine

set_option autoImplicit false

/-- Redis after a program that runs with nothing beside it on these tables. -/
def alone {α : Type} (db : Db) : Coro α → Redis → Redis
  | .done _, r => r
  | .call (.redis c) k, r => alone db (k (.ok (c.run r).2)) (c.run r).1
  | .call (.select q) k, r => alone db (k (.ok (q.run db))) r
  | .call _ _, r => r

/-- Redis when `start_match` is done with it. -/
def seeded (db : Db) (m : Match) (room : Room) (count : Nat) (r : Redis) : Redis :=
  alone db (seedMatchState m room count) r

def ownName (db : Db) (h : Hook) : Bool :=
  db.participants.all fun x => x.id = h.row.participantId → h.nickname = x.nickname

def named (db : Db) (m : Id) : Machine Board Op Op.Res Exn Response Hook Nat Hook :=
  (hooks m).restrict (fun _ _ _ => true) fun _ h => ownName db h

def namesOf (m : Id) (log : List (Nat × Op)) : List (Id × String) :=
  log.foldl (fun fields x => match x.2 with
    | .redis (.setNicknames m' pairs) => if m' = m then hset fields pairs else fields
    | _ => fields) []

def idsOf (top : List LeaderboardEntry) : List Id := top.map (·.participantId)

def Raised (m p : Id) (q : Nat) (log : List (Nat × Op)) : Prop :=
  ∃ d i, (q, .redis (.zaddTotal m p d i)) ∈ log

def Wrote (m : Id) (q : Nat) (log : List (Nat × Op)) : Prop :=
  ∃ pairs, (q, .redis (.setNicknames m pairs)) ∈ log

section

variable {fields pairs : List (Id × String)} {p : Id} {nick : String} {members : List (Id × Int)}
  {s d : Int}

theorem hget_filter_ne {p' : Id} (h : p ≠ p') : hget (fields.filter (·.1 ≠ p')) p = hget fields p := by
  rw [hget, hget, List.find?_filter]
  congr 2
  funext x
  by_cases hx : x.1 = p
  · simp [hx, h]
  · simp [hx]

theorem hget_hset_one {p' : Id} :
    hget (fields.filter (·.1 ≠ p') ++ [(p', nick)]) p = if p = p' then some nick else hget fields p := by
  rw [hget, List.find?_append, Option.map_or]
  change (hget (fields.filter (·.1 ≠ p')) p).or _ = _
  split
  next hp =>
    subst hp
    have hNone : hget (fields.filter (·.1 ≠ p)) p = none := by simp [hget]
    rw [hNone]
    simp
  next hp =>
    rw [hget_filter_ne hp]
    simp [Ne.symm hp]

theorem hget_hset_some (h : hget (hset fields pairs) p = some nick) :
    (p, nick) ∈ pairs ∨ hget fields p = some nick := by
  induction pairs generalizing fields with
  | nil => exact .inr h
  | cons x pairs ih =>
    obtain hIn | hOld := ih h
    · exact .inl (List.mem_cons_of_mem _ hIn)
    · obtain ⟨p', nick'⟩ := x
      rw [hget_hset_one] at hOld
      split at hOld
      next hp =>
        cases hOld
        rw [hp]
        exact .inl List.mem_cons_self
      · exact .inr hOld

theorem hget_hset_isSome :
    (hget (hset fields pairs) p).isSome ↔ p ∈ pairs.map (·.1) ∨ (hget fields p).isSome := by
  induction pairs generalizing fields with
  | nil => simp [hset]
  | cons x pairs ih =>
    obtain ⟨p', nick'⟩ := x
    rw [List.map_cons, List.mem_cons]
    change (hget (hset (fields.filter (·.1 ≠ p') ++ [(p', nick')]) pairs) p).isSome ↔ _
    rw [ih, hget_hset_one]
    split
    next hp => simp [hp]
    next hp => simp [hp]

theorem mem_zincrby {x : Id × Int} (h : x ∈ zincrby members p d) :
    x.1 = p ∨ ∃ y ∈ members, y.1 = x.1 := by
  unfold zincrby at h
  split at h
  · obtain ⟨y, hy, rfl⟩ := List.mem_map.mp h
    refine .inr ⟨y, hy, ?_⟩
    split <;> rfl
  · obtain hOld | hNew := List.mem_append.mp h
    · exact .inr ⟨x, hOld, rfl⟩
    · rw [List.mem_singleton.mp hNew]
      exact .inl rfl

end

section

variable {m : Id} {pid q : Nat} {log ext a c : List (Nat × Op)} {o : Op} {x y : Nat × Op} {p : Id}
  {nick : String} {pairs : List (Id × String)}

theorem namesOf_snoc : namesOf m (log ++ [(pid, o)]) = match o with
    | .redis (.setNicknames m' pairs) => if m' = m then hset (namesOf m log) pairs else namesOf m log
    | _ => namesOf m log := by
  rw [namesOf, List.foldl_append]
  rfl

theorem namesOf_some (h : hget (namesOf m log) p = some nick) :
    ∃ q pairs, (q, .redis (.setNicknames m pairs)) ∈ log ∧ (p, nick) ∈ pairs := by
  induction log using List.reverseRecOn with
  | nil => cases h
  | append_singleton log x ih =>
    obtain ⟨q, o⟩ := x
    have hOld : hget (namesOf m log) p = some nick →
        ∃ q' pairs, (q', .redis (.setNicknames m pairs)) ∈ log ++ [(q, o)] ∧ (p, nick) ∈ pairs := by
      intro hSome
      obtain ⟨q', pairs, hIn, hPair⟩ := ih hSome
      exact ⟨q', pairs, List.mem_append_left _ hIn, hPair⟩
    rw [namesOf_snoc] at h
    split at h
    next m' pairs =>
      split at h
      next hm =>
        subst hm
        obtain hNew | hSome := hget_hset_some h
        · exact ⟨q, pairs, List.mem_append_right _ List.mem_cons_self, hNew⟩
        · exact hOld hSome
      · exact hOld h
    · exact hOld h

theorem namesOf_isSome (h : (q, .redis (.setNicknames m pairs)) ∈ log) (hp : p ∈ pairs.map (·.1)) :
    (hget (namesOf m log) p).isSome := by
  induction log using List.reverseRecOn with
  | nil => cases h
  | append_singleton log x ih =>
    obtain ⟨q', o⟩ := x
    rw [namesOf_snoc]
    obtain hOld | hNew := List.mem_append.mp h
    · have hSome := ih hOld
      split
      · split
        · exact hget_hset_isSome.mpr (.inr hSome)
        · exact hSome
      · exact hSome
    · cases List.mem_singleton.mp hNew
      dsimp only
      rw [if_pos rfl]
      exact hget_hset_isSome.mpr (.inl hp)

theorem raised_of_mem {z : Id × Int} (h : z ∈ tableOf m log) : ∃ q, Raised m z.1 q log := by
  induction log using List.reverseRecOn generalizing z with
  | nil => cases h
  | append_singleton log x ih =>
    obtain ⟨q, o⟩ := x
    have hOld : ∀ z ∈ tableOf m log, ∃ q', Raised m z.1 q' (log ++ [(q, o)]) := by
      intro z hz
      obtain ⟨q', d, i, hIn⟩ := ih hz
      exact ⟨q', d, i, List.mem_append_left _ hIn⟩
    rw [tableOf_snoc] at h
    split at h
    next m' p d i =>
      split at h
      next hm =>
        subst hm
        obtain hp | ⟨y, hy, hEq⟩ := mem_zincrby h
        · rw [hp]
          exact ⟨q, d, i, List.mem_append_right _ List.mem_cons_self⟩
        · rw [← hEq]
          exact hOld y hy
      · exact hOld z h
    · exact hOld z h

theorem Raised.append (h : Raised m p q log) : Raised m p q (log ++ ext) := by
  obtain ⟨d, i, hIn⟩ := h
  exact ⟨d, i, List.mem_append_left _ hIn⟩

theorem split_snoc (h : log ++ [x] = a ++ y :: c) :
    (a = log ∧ x = y) ∨ ∃ c', log = a ++ y :: c' ∧ c = c' ++ [x] := by
  obtain rfl | ⟨c', z, rfl⟩ := c.eq_nil_or_concat
  · obtain ⟨hLog, hLast⟩ := List.append_inj' h rfl
    exact .inl ⟨hLog.symm, List.singleton_inj.mp hLast⟩
  · refine .inr ⟨c', ?_⟩
    rw [List.concat_eq_append, ← List.cons_append, ← List.append_assoc] at h
    obtain ⟨hLog, hLast⟩ := List.append_inj' h rfl
    rw [List.singleton_inj.mp hLast, List.concat_eq_append]
    exact ⟨hLog, rfl⟩

end

section

variable {α : Type} {db : Db} {m : Match} {room : Room} {count : Nat} {r : Redis}

theorem alone_redis {c : RedisCmd} {f : c.Reply → Coro α} :
    alone db (redis c >>= f) r = alone db (f (c.run r).2) (c.run r).1 := rfl

theorem alone_select {q : Query} {f : q.Rows → Coro α} :
    alone db (select q >>= f) r = alone db (f (q.run db)) r := rfl

theorem seeded_empty : (seeded db m room count r).leaderboard m.id = [] ∧
    (seeded db m room count r).nicknames m.id = [] := by
  have hReset : ∀ r' : Redis, (RedisCmd.run r' (.resetLeaderboard m.id)).1.leaderboard m.id = [] ∧
      (RedisCmd.run r' (.resetLeaderboard m.id)).1.nicknames m.id = [] :=
    fun r' => ⟨Function.update_self .., Function.update_self ..⟩
  unfold seeded seedMatchState
  rw [alone_select]
  split
  · rw [alone_redis, alone_redis, alone_redis]
    split
    · exact hReset _
    · exact hReset _
  · rw [alone_redis, alone_redis]
    split
    · exact hReset _
    · exact hReset _

end

/-- The entries show the names that the hash had at one earlier moment, when the scores of
all these participants had been raised. -/
def NamedBy (m : Id) (pid : Nat) (top : List LeaderboardEntry) (log : List (Nat × Op)) : Prop :=
  top = [] ∨ ∃ a c, log = a ++ (pid, .redis (.hmgetNicknames m (idsOf top))) :: c ∧
    ∀ e ∈ top, e.nickname = (hget (namesOf m a) e.participantId).getD "" ∧
      ∃ q, Raised m e.participantId q a

/-- One HSET of the log: a hook's own name, after its own increment. -/
structure Written (db : Db) (m : Id) (q : Nat) (pairs : List (Id × String))
    (before : List (Nat × Op)) : Prop where
  own : ∃ p nick, pairs = [(p, nick)] ∧ Raised m p q before ∧
    ∀ x ∈ db.participants, x.id = p → nick = x.nickname

structure Told (db : Db) (m : Id) (b : Board) : Prop where
  names : b.redis.nicknames m = namesOf m b.log
  one : ∀ q p p', Raised m p q b.log → Raised m p' q b.log → p = p'
  written : ∀ a q pairs c, b.log = a ++ (q, .redis (.setNicknames m pairs)) :: c → Written db m q pairs a
  once : ∀ a q ps ps' c, b.log = a ++ (q, .redis (.hmgetNicknames m ps)) :: c →
    (q, .redis (.hmgetNicknames m ps')) ∉ a
  sent : ∀ q code v top, (q, .broadcast code (.leaderboardUpdated v top)) ∈ b.log →
    NamedBy m q top b.log ∧ ∀ ps, (q, .redis (.hmgetNicknames m ps)) ∈ b.log → ps = idsOf top

def Next (db : Db) (m : Id) (pid : Nat) (b : Board) : Op → Prop
  | .redis (.zaddTotal _ _ _ _) => own pid b.log = []
  | .redis (.setNicknames _ pairs) => Written db m pid pairs b.log
  | .redis (.hmgetNicknames _ _) => (∀ ps, .redis (.hmgetNicknames m ps) ∉ own pid b.log) ∧
      ∀ code v top, .broadcast code (.leaderboardUpdated v top) ∉ own pid b.log
  | .redis (.resetLeaderboard _) => False
  | .broadcast _ (.leaderboardUpdated _ top) => NamedBy m pid top b.log ∧
      ∀ ps, .redis (.hmgetNicknames m ps) ∈ own pid b.log → ps = idsOf top
  | _ => True

def naming (db : Db) (m : Id) : Layer Board Op Hook where
  inv := Told db m
  rely _ _ _ _ _ := True
  req pid _ := Next db m pid

section

variable {db : Db} {m : Id} {base pid q n : Nat} {b b' : Board} {log ext : List (Nat × Op)} {o : Op}
  {entries : List LeaderboardEntry} {t : Hook}

theorem NamedBy.append (h : NamedBy m pid entries log) : NamedBy m pid entries (log ++ ext) := by
  obtain rfl | ⟨a, c, rfl, hNames⟩ := h
  · exact .inl rfl
  · exact .inr ⟨a, c ++ ext, by simp, hNames⟩

theorem NamedBy.rely (h : NamedBy m pid entries b.log) (hRely : Rely pid b b') :
    NamedBy m pid entries b'.log := by
  obtain ⟨ext, hLog, -⟩ := hRely
  rw [hLog]
  exact h.append

theorem raised_snoc (hNext : Next db m pid b o) {p : Id} (h : Raised m p q (b.log ++ [(pid, o)])) :
    Raised m p q b.log ∨ (q = pid ∧ own pid b.log = [] ∧ ∃ d i, o = .redis (.zaddTotal m p d i)) := by
  obtain ⟨d, i, hIn⟩ := h
  obtain hOld | hNew := List.mem_append.mp hIn
  · exact .inl ⟨d, i, hOld⟩
  · cases List.mem_singleton.mp hNew
    exact .inr ⟨rfl, hNext, d, i, rfl⟩

theorem Raised.not_idle {p : Id} (h : Raised m p pid log) : own pid log ≠ [] := by
  obtain ⟨d, i, hIn⟩ := h
  intro hIdle
  rw [← mem_own, hIdle] at hIn
  cases hIn

theorem Told.next (h : Told db m b) (hNext : Next db m pid b o)
    (hNames : b'.redis.nicknames m = namesOf m b'.log) (hLog : b'.log = b.log ++ [(pid, o)]) :
    Told db m b' := by
  refine ⟨hNames, ?_, ?_, ?_, ?_⟩ <;> rw [hLog]
  · intro q p p' hp hp'
    obtain hOld | ⟨rfl, hIdle, d, i, rfl⟩ := raised_snoc hNext hp
    · obtain hOld' | ⟨rfl, hIdle, -⟩ := raised_snoc hNext hp'
      · exact h.one q p p' hOld hOld'
      · exact absurd hIdle hOld.not_idle
    · obtain hOld' | ⟨-, -, d', i', hEq⟩ := raised_snoc hNext hp'
      · exact absurd hIdle hOld'.not_idle
      · cases hEq
        rfl
  · intro a q pairs c hSplit
    obtain ⟨rfl, hEq⟩ | ⟨c', hOld, -⟩ := split_snoc hSplit
    · cases hEq
      exact hNext
    · exact h.written a q pairs c' hOld
  · intro a q ps ps' c hSplit
    obtain ⟨rfl, hEq⟩ | ⟨c', hOld, -⟩ := split_snoc hSplit
    · cases hEq
      rw [← mem_own]
      exact hNext.1 ps'
    · exact h.once a q ps ps' c' hOld
  · intro q code v top hIn
    obtain hOld | hNew := List.mem_append.mp hIn
    · obtain ⟨hNamed, hIds⟩ := h.sent q code v top hOld
      refine ⟨hNamed.append, fun ps hps => ?_⟩
      obtain hOldRead | hNewRead := List.mem_append.mp hps
      · exact hIds ps hOldRead
      · cases List.mem_singleton.mp hNewRead
        exact absurd (mem_own.mpr hOld) (hNext.2 code v top)
    · cases List.mem_singleton.mp hNew
      refine ⟨hNext.1.append, fun ps hps => ?_⟩
      obtain hOldRead | hNewRead := List.mem_append.mp hps
      · exact hNext.2 ps (mem_own.mpr hOldRead)
      · cases List.mem_singleton.mp hNewRead

theorem run_names {c : RedisCmd} (h : Told db m b) (hNext : Next db m pid b (.redis c)) :
    (c.run b.redis).1.nicknames m = namesOf m (b.log ++ [(pid, .redis c)]) := by
  rw [namesOf_snoc]
  cases c with
  | setNicknames m' pairs =>
    change Function.update b.redis.nicknames m' _ m = if m' = m then _ else _
    split
    next hm =>
      subst hm
      rw [Function.update_self, h.names]
    next hm =>
      rw [Function.update_of_ne (Ne.symm hm)]
      exact h.names
  | resetLeaderboard m' => exact hNext.elim
  | idemSet k resp =>
    cases hOld : b.redis.idem k <;> simp only [RedisCmd.run, hOld] <;> exact h.names
  | _ => exact h.names

theorem exec_told {d : Nat} {out : Answer o} (h : Told db m b) (hNext : Next db m pid b o)
    (hExec : exec b t pid n o d = some out) : Told db m out.shared ∧ out.spawned = none := by
  cases o with
  | nextId =>
    cases hExec
    exact ⟨h, rfl⟩
  | redis c =>
    cases hExec
    exact ⟨h.next hNext (run_names h hNext) rfl, rfl⟩
  | broadcast code message =>
    cases hExec
    refine ⟨h.next hNext ?_ rfl, rfl⟩
    dsimp only
    rw [namesOf_snoc]
    exact h.names
  | _ => cases hExec

variable {α : Type}

abbrev Tells (db : Db) (m : Id) (base pid : Nat) (t : Hook) (p : Coro α)
    (Q : Except Exn α → Board → Prop) (b : Board) : Prop :=
  (naming db m).wp (named db m) (contract m base) pid t p Q b

theorem tells_redis {c : RedisCmd} {f : c.Reply → Coro α} {Q : Except Exn α → Board → Prop}
    (h : ∀ b₁ n, Rely pid b b₁ → Inv m base n b₁ → Told db m b₁ → Next db m pid b₁ (.redis c) ∧
      Tells db m base pid t (f (c.run b₁.redis).2) Q (b₁.run pid c)) :
    Tells db m base pid t (redis c >>= f) Q b := by
  apply Layer.wp_bind
  intro b₁ n _ hRely _ hInv hTold _
  obtain ⟨hNext, hRest⟩ := h b₁ n hRely hInv hTold
  refine ⟨hNext, fun d out hOut => ?_⟩
  cases (restrict_exec hOut).2
  exact hRest

theorem tells_broadcast {code : String} {message : Message} {f : Unit → Coro α}
    {Q : Except Exn α → Board → Prop}
    (h : ∀ b₁ : Board, Rely pid b b₁ → Next db m pid b₁ (.broadcast code message) ∧
      Tells db m base pid t (f ()) Q { b₁ with log := b₁.log ++ [(pid, .broadcast code message)] }) :
    Tells db m base pid t (broadcast code message >>= f) Q b := by
  apply Layer.wp_bind
  apply Layer.wp_bind
  intro b₁ n _ hRely _ _ _ _
  refine ⟨trivial, fun d out hOut => ?_⟩
  cases (restrict_exec hOut).2
  apply Layer.wp_handle
  intro b₂ n' _ hRely' _ _ _ _
  obtain ⟨hNext, hRest⟩ := h b₂ (hRely.trans hRely')
  refine ⟨hNext, fun d' out' hOut' => ?_⟩
  cases (restrict_exec hOut').2
  exact hRest

def Listed (m : Id) (pid : Nat) (top10 : List LeaderboardEntry) (b : Board) : Prop :=
  NamedBy m pid top10 b.log ∧ ∀ ps, .redis (.hmgetNicknames m ps) ∈ own pid b.log → ps = idsOf top10

/-- What `top` makes of its two answers. -/
def entriesOf (rows : List (Id × Int)) (nicks : List (Option String)) : List LeaderboardEntry :=
  (rows.zip nicks).mapIdx fun i ((pid, score), nick) => ⟨i + 1, pid, nick.getD "", score⟩

theorem idsOf_entriesOf {rows : List (Id × Int)} {nicks : List (Option String)}
    (h : nicks.length = rows.length) : idsOf (entriesOf rows nicks) = rows.map (·.1) := by
  calc
    idsOf (entriesOf rows nicks) = (rowsOf (entriesOf rows nicks)).map (·.1) := by simp [idsOf, rowsOf]
    _ = rows.map (·.1) := by rw [entriesOf, rowsOf_mapIdx h]

theorem mem_entriesOf {rows : List (Id × Int)} {fields : List (Id × String)} {e : LeaderboardEntry}
    (h : e ∈ entriesOf rows ((rows.map (·.1)).map (hget fields))) :
    e.nickname = (hget fields e.participantId).getD "" ∧ ∃ z ∈ rows, z.1 = e.participantId := by
  obtain ⟨i, hi, rfl⟩ := List.mem_mapIdx.mp h
  rw [List.getElem_zip, List.getElem_map, List.getElem_map]
  exact ⟨rfl, _, List.getElem_mem _, rfl⟩

theorem mem_zrevrange {members : List (Id × Int)} {n : Nat} {z : Id × Int}
    (h : z ∈ zrevrange members n) : z ∈ members :=
  (List.mem_insertionSort _).mp (List.mem_of_mem_take h)

theorem tells_top {before : List Op} (hOwn : own pid b.log = before)
    (hFirst : ∀ ps, .redis (.hmgetNicknames m ps) ∉ before)
    (hQuiet : ∀ code v entries, .broadcast code (.leaderboardUpdated v entries) ∉ before) :
    Tells db m base pid t (top m 10)
      (fun res b' => ∃ top10, res = .ok top10 ∧ Listed m pid top10 b') b := by
  refine tells_redis fun b₁ n₁ hRely₁ hInv₁ _ => ⟨?_, ?_⟩
  · trivial
  have hOwn₁ : own pid (b₁.run pid (.zrevrange m 10)).log = before ++ [.redis (.zrevrange m 10)] := by
    rw [run_own, hRely₁.own, hOwn]
  have hRaised : ∀ z ∈ zrevrange (b₁.redis.leaderboard m) 10, ∃ q, Raised m z.1 q b₁.log := by
    intro z hz
    rw [hInv₁.table] at hz
    exact raised_of_mem (mem_zrevrange hz)
  change Tells db m base pid t (if (zrevrange (b₁.redis.leaderboard m) 10).isEmpty then pure [] else
    redis (.hmgetNicknames m ((zrevrange (b₁.redis.leaderboard m) 10).map (·.1))) >>= fun nicks =>
      pure (entriesOf (zrevrange (b₁.redis.leaderboard m) 10) nicks)) _ _
  generalize zrevrange (b₁.redis.leaderboard m) 10 = rows at hRaised ⊢
  split
  · refine ⟨[], rfl, .inl rfl, fun ps hps => ?_⟩
    rw [hOwn₁] at hps
    simp [hFirst] at hps
  · refine tells_redis fun b₂ n₂ hRely₂ _ hTold₂ => ⟨⟨?_, ?_⟩, ?_⟩
    · rw [hRely₂.own, hOwn₁]
      simp [hFirst]
    · rw [hRely₂.own, hOwn₁]
      simp [hQuiet]
    · have hIds : idsOf (entriesOf rows ((rows.map (·.1)).map (hget (b₂.redis.nicknames m)))) =
          rows.map (·.1) := idsOf_entriesOf (by simp)
      refine ⟨entriesOf rows ((rows.map (·.1)).map (hget (b₂.redis.nicknames m))), rfl, ?_, ?_⟩
      · refine .inr ⟨b₂.log, [], ?_, fun e he => ?_⟩
        · rw [hIds]
          rfl
        · obtain ⟨hNick, z, hz, hEq⟩ := mem_entriesOf he
          rw [hTold₂.names] at hNick
          obtain ⟨q, hq⟩ := hRaised z hz
          obtain ⟨ext, hLog, -⟩ := hRely₂
          refine ⟨hNick, q, ?_⟩
          rw [← hEq, hLog]
          exact Raised.append (Raised.append hq)
      · intro ps hps
        rw [run_own, hRely₂.own, hOwn₁] at hps
        rw [hIds]
        simpa [hFirst] using hps

theorem tells_hook {h : Hook} (hm : h.row.matchId = m) (hName : ownName db h = true)
    (hNew : own pid b.log = []) :
    Tells db m base pid h (submitHooks h.row h.questionId h.nickname (some h.roomCode))
      (fun _ _ => True) b := by
  unfold submitHooks
  rw [hm]
  refine tells_redis fun b₁ n₁ hRely₁ _ _ => ⟨hRely₁.own.trans hNew, ?_⟩
  refine tells_redis fun b₂ n₂ hRely₂ _ _ => ⟨trivial, ?_⟩
  refine tells_redis fun b₃ n₃ hRely₃ _ _ => ⟨⟨h.row.participantId, h.nickname, rfl, ?_, ?_⟩, ?_⟩
  · refine ⟨h.row.scoreAwarded, h.row.id, ?_⟩
    rw [← mem_own, hRely₃.own, run_own, hRely₂.own, run_own]
    simp
  · intro x hx hId
    exact of_decide_eq_true (List.all_eq_true.mp hName x hx) hId
  have hOwn : own pid (b₃.run pid (.setNicknames m [(h.row.participantId, h.nickname)])).log =
      [.redis (.zaddTotal m h.row.participantId h.row.scoreAwarded h.row.id),
        .redis (.markAnswered m h.questionId h.row.participantId),
        .redis (.setNicknames m [(h.row.participantId, h.nickname)])] := by
    rw [run_own, hRely₃.own, run_own, hRely₂.own, run_own, hRely₁.own, hNew]
    rfl
  refine Layer.wp_bind (Layer.wp_mono (tells_top hOwn (by simp) (by simp)) ?_)
  rintro _ b₄ ⟨top10, rfl, hNamed, hIds⟩
  refine tells_redis fun b₅ n₅ hRely₅ _ _ => ⟨trivial, ?_⟩
  refine tells_broadcast fun b₆ hRely₆ => ⟨⟨?_, ?_⟩, ?_⟩
  · exact ((hNamed.rely hRely₅).append).rely hRely₆
  · intro ps hps
    rw [hRely₆.own, run_own, hRely₅.own] at hps
    exact hIds ps (by simpa using hps)
  · refine tells_redis fun b₇ n₇ _ _ _ => ⟨trivial, trivial⟩

theorem naming_fits : (naming db m).Fits (named db m) (contract m base) where
  steady := ⟨fun _ _ _ _ => trivial, fun _ _ _ _ _ _ _ _ => trivial⟩
  exec b t pid n o d out _ hTold _ hNext hExec := by
    obtain ⟨-, hOut⟩ := restrict_exec hExec
    obtain ⟨hTold', hNone⟩ := exec_told (t := t) (n := n) hTold hNext hOut
    refine ⟨hTold', fun _ _ _ _ _ => trivial, fun t' hNew => ?_⟩
    rw [hNone] at hNew
    cases hNew
  env b n h out hInv hTold hEnv := by
    obtain ⟨hName, hOut⟩ := restrict_env hEnv
    have hIf : (if h.row.matchId = m then some (b, some h) else none) = some out := hOut
    split at hIf
    next hm =>
      cases hIf
      refine ⟨hTold, fun _ _ _ _ => trivial, ?_⟩
      rintro t' ⟨⟩
      exact tells_hook hm hName hInv.idle
    · cases hIf

theorem carried_start {mt : Match} {room : Room} {count : Nat} {r : Redis} :
    (naming db mt.id).Carried (named db mt.id)
      (contract mt.id ((seeded db mt room count r).lbVersion mt.id))
      (start (seeded db mt room count r)) := by
  refine ⟨(kept_start seeded_empty.1).restrict, ⟨seeded_empty.2, ?_, ?_, ?_, ?_⟩, ?_⟩
  · rintro q p p' ⟨d, i, hIn⟩
    cases hIn
  · intro a q pairs c hSplit
    simp [start] at hSplit
  · intro a q ps ps' c hSplit
    simp [start] at hSplit
  · rintro q code v top ⟨⟩
  · rintro pid p ⟨⟩

end

end LiveQuiz.Hooks
