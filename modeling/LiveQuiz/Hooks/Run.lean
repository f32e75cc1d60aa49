import LiveQuiz.Hooks.Board

/-! # Runs of the hooks

The sorted set and the version counter are what the log makes of them, and every hook
that has ended has made its calls in order: the increment, the read, the version, the
broadcast of what it read.
-/

namespace LiveQuiz.Hooks

open Coroutine

set_option autoImplicit false

section

variable (m : Id) (base : Nat)

structure Inv (n : Nat) (b : Board) : Prop where
  table : b.redis.leaderboard m = tableOf m b.log
  version : b.redis.lbVersion m = base + versions m b.log
  pids : ∀ x ∈ b.log, x.1 < n

def Rely (pid : Nat) (b b' : Board) : Prop := ∃ ext, b'.log = b.log ++ ext ∧ ∀ x ∈ ext, x.1 ≠ pid

def Read (pid : Nat) (rows : List (Id × Int)) (log : List (Nat × Op)) : Prop :=
  ∀ a c, log = a ++ (pid, .redis (.zrevrange m 10)) :: c → rows = zrevrange (tableOf m a) 10

def Versioned (pid v : Nat) (log : List (Nat × Op)) : Prop :=
  ∀ a c, log = a ++ (pid, .redis (.incrLbVersion m)) :: c → v = base + versions m a + 1

/-- The calls of a hook that has ended, in order. -/
structure Done (pid : Nat) (log : List (Nat × Op)) : Prop where
  calls : ∃ p d i q nick nicks code v top rid resp, own pid log =
      [.redis (.zaddTotal m p d i), .redis (.markAnswered m q p), .redis (.setNicknames m nick),
        .redis (.zrevrange m 10)] ++ nicks ++ [.redis (.incrLbVersion m),
        .broadcast code (.leaderboardUpdated v top), .redis (.idemSet rid resp)] ∧
    (∀ o ∈ nicks, ∃ ps, o = .redis (.hmgetNicknames m ps)) ∧
    Read m pid (rowsOf top) log ∧ Versioned m base pid v log

def contract : Contract Board Op Exn Response Hook where
  inv := Inv m base
  rely := Rely
  req _ _ _ o := ∀ m', o ≠ .redis (.resetLeaderboard m')
  post pid _ _ b := Done m base pid b.log

end

section

variable {m : Id} {base pid q v n n' : Nat} {b b' b'' : Board} {log ext : List (Nat × Op)}
  {rows : List (Id × Int)} {o : Op}

theorem Rely.refl (pid : Nat) (b : Board) : Rely pid b b := ⟨[], by simp, by simp⟩

theorem Rely.trans (h : Rely pid b b') (h' : Rely pid b' b'') : Rely pid b b'' := by
  obtain ⟨ext, hLog, hExt⟩ := h
  obtain ⟨ext', hLog', hExt'⟩ := h'
  refine ⟨ext ++ ext', by rw [hLog', hLog, List.append_assoc], fun x hx => ?_⟩
  obtain hIn | hIn := List.mem_append.mp hx
  · exact hExt x hIn
  · exact hExt' x hIn

theorem Rely.own (h : Rely pid b b') : own pid b'.log = own pid b.log := by
  obtain ⟨ext, hLog, hExt⟩ := h
  rw [hLog, own_append, own_foreign hExt, List.append_nil]

/-- The facts about a program's own entries outlast entries that are not of their kind. -/
theorem Read.append (h : Read m pid rows log)
    (hExt : (pid, .redis (.zrevrange m 10)) ∉ ext) : Read m pid rows (log ++ ext) := by
  intro a c hSplit
  obtain ⟨c', hLog, -⟩ := split_append hExt hSplit
  exact h a c' hLog

theorem Versioned.append (h : Versioned m base pid v log)
    (hExt : (pid, .redis (.incrLbVersion m)) ∉ ext) : Versioned m base pid v (log ++ ext) := by
  intro a c hSplit
  obtain ⟨c', hLog, -⟩ := split_append hExt hSplit
  exact h a c' hLog

theorem Rely.foreign (hExt : ∀ x ∈ ext, x.1 ≠ pid) : (pid, o) ∉ ext :=
  fun hIn => hExt _ hIn rfl

theorem Read.rely (h : Read m pid rows b.log) (hRely : Rely pid b b') : Read m pid rows b'.log := by
  obtain ⟨ext, hLog, hExt⟩ := hRely
  rw [hLog]
  exact h.append (Rely.foreign hExt)

theorem Versioned.rely (h : Versioned m base pid v b.log) (hRely : Rely pid b b') :
    Versioned m base pid v b'.log := by
  obtain ⟨ext, hLog, hExt⟩ := hRely
  rw [hLog]
  exact h.append (Rely.foreign hExt)

theorem Done.rely (h : Done m base pid b.log) (hRely : Rely pid b b') : Done m base pid b'.log := by
  obtain ⟨p, d, i, q, nick, nicks, code, v, top, rid, resp, hOwn, hNicks, hRead, hVersion⟩ := h.calls
  exact ⟨p, d, i, q, nick, nicks, code, v, top, rid, resp, hRely.own.trans hOwn, hNicks,
    hRead.rely hRely, hVersion.rely hRely⟩

theorem run_table {c : RedisCmd} (h : Inv m base n b) (hc : ∀ m', c ≠ .resetLeaderboard m') :
    (c.run b.redis).1.leaderboard m = tableOf m (b.log ++ [(pid, .redis c)]) := by
  rw [tableOf_snoc]
  cases c with
  | zaddTotal m' p d i =>
    change Function.update b.redis.leaderboard m' _ m = if m' = m then _ else _
    by_cases hm : m' = m
    · subst hm
      rw [Function.update_self, if_pos rfl, h.table]
    · rw [Function.update_of_ne (Ne.symm hm), if_neg hm]
      exact h.table
  | resetLeaderboard m' => exact absurd rfl (hc m')
  | idemSet k resp =>
    cases hOld : b.redis.idem k <;> simp only [RedisCmd.run, hOld] <;> exact h.table
  | _ => exact h.table

theorem run_version {c : RedisCmd} (h : Inv m base n b) :
    (c.run b.redis).1.lbVersion m = base + versions m (b.log ++ [(pid, .redis c)]) := by
  rw [versions_append, ← Nat.add_assoc, ← h.version]
  cases c with
  | incrLbVersion m' =>
    change Function.update b.redis.lbVersion m' _ m = _
    by_cases hm : m' = m
    · subst hm
      rw [Function.update_self]
      simp [versions]
    · rw [Function.update_of_ne (Ne.symm hm)]
      simp [versions, hm]
  | idemSet k resp => cases hOld : b.redis.idem k <;> simp [RedisCmd.run, hOld, versions]
  | _ => simp [RedisCmd.run, versions, Redis.sadd]

theorem mem_snoc_lt {x : Nat × Op} (h : Inv m base n b) (hLt : pid < n)
    (hx : x ∈ b.log ++ [(pid, o)]) : x.1 < n := by
  obtain hOld | hNew := List.mem_append.mp hx
  · exact h.pids x hOld
  · rw [List.mem_singleton.mp hNew]
    exact hLt

theorem rely_snoc (hq : q ≠ pid) (hLog : b'.log = b.log ++ [(pid, o)]) : Rely q b b' := by
  refine ⟨_, hLog, fun x hx => ?_⟩
  rw [List.mem_singleton.mp hx]
  exact Ne.symm hq

theorem exec_kept {t : Hook} {d : Nat} {out : Answer o} (h : exec b t pid n o d = some out)
    (hInv : Inv m base n b) (hReq : ∀ m', o ≠ .redis (.resetLeaderboard m')) (hLt : pid < n) :
    Inv m base n out.shared ∧ (∀ q, q ≠ pid → Rely q b out.shared) ∧ out.spawned = none := by
  cases o with
  | nextId =>
    cases h
    exact ⟨hInv, fun q _ => .refl q b, rfl⟩
  | redis c =>
    cases h
    have hc : ∀ m', c ≠ .resetLeaderboard m' := fun m' hEq => hReq m' (by rw [hEq])
    exact ⟨⟨run_table hInv hc, run_version hInv, fun x hx => mem_snoc_lt hInv hLt hx⟩,
      fun q hq => rely_snoc hq rfl, rfl⟩
  | broadcast code message =>
    cases h
    refine ⟨⟨?_, ?_, fun x hx => mem_snoc_lt hInv hLt hx⟩, fun q hq => rely_snoc hq rfl, rfl⟩
    · dsimp only
      rw [tableOf_snoc]
      exact hInv.table
    · rw [versions_append, ← Nat.add_assoc, ← hInv.version]
      simp [versions]
  | _ => cases h

section

variable {t : Hook} {α β : Type}

abbrev Runs (m : Id) (base pid : Nat) (t : Hook) (p : Coro α)
    (Q : Except Exn α → Board → Prop) (b : Board) : Prop :=
  wp (hooks m) (contract m base) pid t p Q b

theorem runs_redis {c : RedisCmd} {f : c.Reply → Coro α} {Q : Except Exn α → Board → Prop}
    (hc : ∀ m', c ≠ .resetLeaderboard m')
    (h : ∀ b₁ n, Rely pid b b₁ → Inv m base n b₁ →
      Runs m base pid t (f (c.run b₁.redis).2) Q (b₁.run pid c)) :
    Runs m base pid t (redis c >>= f) Q b := by
  refine wp_bind (wp_perform fun b₁ n hLt hRely hInv => ⟨?_, fun d out hOut => ?_⟩)
  · rintro m' hEq
    exact hc m' (Op.redis.inj hEq)
  · cases hOut
    exact h b₁ n hRely hInv

theorem run_own (b : Board) (pid : Nat) (c : RedisCmd) :
    own pid (b.run pid c).log = own pid b.log ++ [.redis c] := own_snoc

theorem runs_broadcast {code : String} {message : Message} {f : Unit → Coro α}
    {Q : Except Exn α → Board → Prop}
    (h : ∀ b₁ : Board, Rely pid b b₁ →
      Runs m base pid t (f ()) Q { b₁ with log := b₁.log ++ [(pid, .broadcast code message)] }) :
    Runs m base pid t (broadcast code message >>= f) Q b := by
  refine wp_bind (wp_bind (wp_perform fun b₁ n _ hRely _ => ⟨by simp [contract], fun d out hOut => ?_⟩))
  cases hOut
  refine wp_handle (wp_perform fun b₂ n' _ hRely' _ => ⟨by simp [contract], fun d' out' hOut' => ?_⟩)
  cases hOut'
  exact h b₂ (hRely.trans hRely')

theorem split_last {x : Nat × Op} {a c : List (Nat × Op)} (hNew : x ∉ log)
    (h : log ++ [x] = a ++ x :: c) : a = log :=
  ((List.append_cons_inj_of_notMem hNew (List.not_mem_nil)).mp h).1.symm

theorem read_now (h : (pid, .redis (.zrevrange m 10)) ∉ log) :
    Read m pid (zrevrange (tableOf m log) 10) (log ++ [(pid, .redis (.zrevrange m 10))]) := by
  intro a c hSplit
  rw [split_last h hSplit]

theorem versioned_now (h : (pid, .redis (.incrLbVersion m)) ∉ log) :
    Versioned m base pid (base + versions m log + 1) (log ++ [(pid, .redis (.incrLbVersion m))]) := by
  intro a c hSplit
  rw [split_last h hSplit]

theorem rowsOf_mapIdx {rows : List (Id × Int)} {nicks : List (Option String)}
    (h : nicks.length = rows.length) : rowsOf ((rows.zip nicks).mapIdx fun i ((pid, score), nick) =>
      (⟨i + 1, pid, nick.getD "", score⟩ : LeaderboardEntry)) = rows := by
  refine List.ext_getElem (by simp [rowsOf, h]) fun i h₁ h₂ => ?_
  simp [rowsOf]

/-- What the program has when `top` returns. -/
def HasRead (m : Id) (pid : Nat) (before : List Op) (top10 : List LeaderboardEntry) (b : Board) :
    Prop :=
  Read m pid (rowsOf top10) b.log ∧ ∃ nicks,
    own pid b.log = before ++ [.redis (.zrevrange m 10)] ++ nicks ∧
    ∀ o ∈ nicks, ∃ ps, o = .redis (.hmgetNicknames m ps)

theorem runs_top {before : List Op} (hOwn : own pid b.log = before)
    (hFirst : .redis (.zrevrange m 10) ∉ before) :
    Runs m base pid t (top m 10)
      (fun res b' => ∃ top10, res = .ok top10 ∧ HasRead m pid before top10 b') b := by
  refine runs_redis (by simp) fun b₁ n₁ hRely₁ hInv₁ => ?_
  have hOwn₁ : own pid b₁.log = before := hRely₁.own.trans hOwn
  have hNew : (pid, .redis (.zrevrange m 10)) ∉ b₁.log := by
    rw [← mem_own, hOwn₁]
    exact hFirst
  have hRead : Read m pid (zrevrange (b₁.redis.leaderboard m) 10)
      (b₁.run pid (.zrevrange m 10)).log := by
    rw [hInv₁.table]
    exact read_now hNew
  have hDid : own pid (b₁.run pid (.zrevrange m 10)).log = before ++ [.redis (.zrevrange m 10)] := by
    rw [← hOwn₁]
    exact own_snoc
  change Runs m base pid t (if (zrevrange (b₁.redis.leaderboard m) 10).isEmpty then _ else _) _ _
  split
  next hEmpty =>
    rw [List.isEmpty_iff.mp hEmpty] at hRead
    exact ⟨[], rfl, hRead, [], by simpa using hDid, by simp⟩
  · refine runs_redis (by simp) fun b₂ n₂ hRely₂ hInv₂ => ?_
    refine ⟨_, rfl, ?_, [.redis (.hmgetNicknames m ((zrevrange (b₁.redis.leaderboard m) 10).map (·.1)))],
      ?_, fun o ho => ⟨_, List.mem_singleton.mp ho⟩⟩
    · rw [rowsOf_mapIdx (by simp [RedisCmd.run])]
      exact (hRead.rely hRely₂).append (by simp)
    · rw [← hDid, ← hRely₂.own]
      exact own_snoc

theorem runs_hook {h : Hook} (hm : h.row.matchId = m) (hNew : own pid b.log = []) :
    Runs m base pid h (submitHooks h.row h.questionId h.nickname (some h.roomCode))
      (fun _ b' => Done m base pid b'.log) b := by
  unfold submitHooks
  rw [hm]
  refine runs_redis (by simp) fun b₁ n₁ hRely₁ hInv₁ => ?_
  refine runs_redis (by simp) fun b₂ n₂ hRely₂ hInv₂ => ?_
  refine runs_redis (by simp) fun b₃ n₃ hRely₃ hInv₃ => ?_
  have hOwn : own pid (b₃.run pid (.setNicknames m [(h.row.participantId, h.nickname)])).log =
      [.redis (.zaddTotal m h.row.participantId h.row.scoreAwarded h.row.id),
        .redis (.markAnswered m h.questionId h.row.participantId),
        .redis (.setNicknames m [(h.row.participantId, h.nickname)])] := by
    rw [run_own, hRely₃.own, run_own, hRely₂.own, run_own, hRely₁.own, hNew]
    rfl
  refine wp_bind (wp_mono (runs_top hOwn (by simp)) ?_)
  rintro _ b₄ ⟨top10, rfl, hRead, nicks, hOwn₄, hNicks⟩
  refine runs_redis (by simp) fun b₅ n₅ hRely₅ hInv₅ => ?_
  have hFirst : (pid, .redis (.incrLbVersion m)) ∉ b₅.log := by
    rw [← mem_own, hRely₅.own, hOwn₄]
    simp only [List.mem_append, List.mem_cons, List.not_mem_nil, or_false, Op.redis.injEq, reduceCtorEq,
      false_or]
    intro hIn
    obtain ⟨ps, hEq⟩ := hNicks _ hIn
    cases hEq
  have hVersion : Versioned m base pid (b₅.redis.lbVersion m + 1)
      (b₅.run pid (.incrLbVersion m)).log := by
    rw [hInv₅.version]
    exact versioned_now hFirst
  have hRead₅ : Read m pid (rowsOf top10) (b₅.run pid (.incrLbVersion m)).log :=
    (hRead.rely hRely₅).append (by simp)
  refine runs_broadcast fun b₆ hRely₆ => ?_
  refine runs_redis (by simp) fun b₇ n₇ hRely₇ _ => ?_
  refine ⟨⟨h.row.participantId, h.row.scoreAwarded, h.row.id, h.questionId,
    [(h.row.participantId, h.nickname)], nicks, h.roomCode, b₅.redis.lbVersion m + 1, top10,
    h.row.requestId, Response.ofRow h.row (rankOf h.row.participantId top10), ?_, hNicks, ?_, ?_⟩⟩
  · rw [run_own, hRely₇.own, own_snoc, hRely₆.own, run_own, hRely₅.own, hOwn₄]
    simp [RedisCmd.run]
  · exact (((hRead₅.rely hRely₆).append (by simp)).rely hRely₇).append (by simp)
  · exact (((hVersion.rely hRely₆).append (by simp)).rely hRely₇).append (by simp)

end

theorem Inv.idle (h : Inv m base n b) : own n b.log = [] :=
  own_foreign fun x hx hEq => absurd (h.pids x hx) (by omega)

theorem sound : Sound (hooks m) (contract m base) where
  rely_trans _ _ _ _ := Rely.trans
  rely_refl := Rely.refl
  post_rely _ _ _ _ _ h hRely := h.rely hRely
  exec b t pid n o d out hInv hReq hLt hExec := by
    obtain ⟨hKept, hRely, hNone⟩ := exec_kept (t := t) hExec hInv hReq hLt
    refine ⟨by rw [hNone]; exact hKept, fun q _ hq => hRely q hq, fun t' ht' => ?_⟩
    rw [hNone] at ht'
    cases ht'
  env b n h out hInv hEnv := by
    have hIf : (if h.row.matchId = m then some (b, some h) else none) = some out := hEnv
    split at hIf
    next hm =>
      cases hIf
      refine ⟨⟨hInv.table, hInv.version, fun x hx => ?_⟩, fun q _ => .refl q b, ?_⟩
      · have := hInv.pids x hx
        simp only [Option.toList_some, List.length_singleton]
        omega
      · rintro t' ⟨⟩
        exact runs_hook hm hInv.idle
    · cases hIf

theorem kept_start {r : Redis} (hEmpty : r.leaderboard m = []) :
    Kept (hooks m) (contract m (r.lbVersion m)) (start r) := by
  refine ⟨⟨hEmpty, rfl, ?_⟩, ?_⟩
  · rintro x ⟨⟩
  · rintro pid p ⟨⟩

end

end LiveQuiz.Hooks
