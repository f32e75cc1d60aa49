import LiveQuiz.Hooks.Run
import LiveQuiz.Client.Store
import Mathlib.Data.List.Permutation

/-! # What the leaderboard of a client ends with

A hook reads the top ten and takes its version in two steps, and a client keeps the
greatest version. So the client ends with what the hook read that took the last version,
and that is the top ten of the final sorted set unless an increment that came between
the two steps has changed it.
-/

namespace LiveQuiz.Hooks

open Coroutine

set_option autoImplicit false

section

variable {m : Id} {base pid : Nat} {log a c : List (Nat × Op)}

theorem Done.version_after (h : Done m base pid log) {p : Id} {d : Int} {i : Id}
    (hSplit : log = a ++ (pid, .redis (.zaddTotal m p d i)) :: c) :
    (pid, .redis (.incrLbVersion m)) ∈ c := by
  obtain ⟨p', d', i', q, nick, nicks, code, v, top, rid, resp, hOwn, hNicks, -⟩ := h.calls
  rw [own_split hSplit] at hOwn
  rw [← mem_own]
  cases hFront : own pid a with
  | nil =>
    rw [hFront] at hOwn
    simp only [List.nil_append, List.cons_append, List.cons.injEq] at hOwn
    rw [hOwn.2]
    simp
  | cons x xs =>
    rw [hFront] at hOwn
    simp only [List.cons_append, List.cons.injEq] at hOwn
    have hIn : Op.redis (.zaddTotal m p d i) ∈ xs ++ .redis (.zaddTotal m p d i) :: own pid c :=
      List.mem_append_right _ List.mem_cons_self
    rw [hOwn.2] at hIn
    simp only [List.nil_append, List.mem_cons, Op.redis.injEq, reduceCtorEq, List.mem_append,
      List.not_mem_nil, or_false, false_or] at hIn
    obtain ⟨ps, hEq⟩ := hNicks _ hIn
    cases hEq

theorem Done.read_before (h : Done m base pid log)
    (hSplit : log = a ++ (pid, .redis (.incrLbVersion m)) :: c) :
    (pid, .redis (.zrevrange m 10)) ∈ a := by
  obtain ⟨p', d', i', q, nick, nicks, code, v, top, rid, resp, hOwn, hNicks, -⟩ := h.calls
  rw [own_split hSplit] at hOwn
  have hOther : Op.redis (.incrLbVersion m) ∉ nicks := by
    intro hIn
    obtain ⟨ps, hEq⟩ := hNicks _ hIn
    cases hEq
  have hFront := ((List.append_cons_inj_of_notMem (by simp [hOther]) (by simp)).mp hOwn.symm).1
  rw [← mem_own, ← hFront]
  simp

/-- The one update that a hook has sent. -/
structure Update (m : Id) (base pid : Nat) (u : Nat × List LeaderboardEntry)
    (log : List (Nat × Op)) : Prop where
  sent : u ∈ updates log
  version : (pid, .redis (.incrLbVersion m)) ∈ log
  only : ∀ code u', (pid, .broadcast code (.leaderboardUpdated u'.1 u'.2)) ∈ log → u' = u
  read : Read m pid (rowsOf u.2) log
  versioned : Versioned m base pid u.1 log

theorem mem_updates {u : Nat × List LeaderboardEntry} :
    u ∈ updates log ↔ ∃ pid code, (pid, .broadcast code (.leaderboardUpdated u.1 u.2)) ∈ log := by
  constructor
  · intro hu
    obtain ⟨⟨pid, o⟩, hx, hEq⟩ := List.mem_filterMap.mp hu
    dsimp only at hEq
    split at hEq
    next code v top =>
      cases hEq
      exact ⟨pid, code, hx⟩
    · cases hEq
  · rintro ⟨pid, code, hx⟩
    exact List.mem_filterMap.mpr ⟨_, hx, rfl⟩

theorem Done.update (h : Done m base pid log) : ∃ u, Update m base pid u log := by
  obtain ⟨p, d, i, q, nick, nicks, code, v, top, rid, resp, hOwn, hNicks, hRead, hVersion⟩ := h.calls
  refine ⟨(v, top), mem_updates.mpr ⟨pid, code, ?_⟩, ?_, ?_, hRead, hVersion⟩
  · rw [← mem_own, hOwn]
    simp
  · rw [← mem_own, hOwn]
    simp
  · rintro code' ⟨v', top'⟩ hIn
    rw [← mem_own, hOwn] at hIn
    simp only [List.cons_append, List.nil_append, List.mem_cons, reduceCtorEq, List.mem_append,
      Op.broadcast.injEq, Message.leaderboardUpdated.injEq, List.not_mem_nil, or_false,
      false_or] at hIn
    obtain hNick | ⟨-, rfl, rfl⟩ := hIn
    · obtain ⟨ps, hEq⟩ := hNicks _ hNick
      cases hEq
    · rfl

def LastVersion (m : Id) (pid : Nat) (pre post log : List (Nat × Op)) : Prop :=
  log = pre ++ (pid, .redis (.incrLbVersion m)) :: post ∧
    ∀ x ∈ post, x.2 ≠ .redis (.incrLbVersion m)

theorem exists_lastVersion (h : (pid, .redis (.incrLbVersion m)) ∈ log) :
    ∃ q pre post, LastVersion m q pre post log := by
  induction log using List.reverseRecOn with
  | nil => cases h
  | append_singleton log x ih =>
    by_cases hx : x.2 = .redis (.incrLbVersion m)
    · obtain ⟨q, o⟩ := x
      cases hx
      exact ⟨q, log, [], rfl, by simp⟩
    · obtain hOld | hNew := List.mem_append.mp h
      · obtain ⟨q, pre, post, rfl, hPost⟩ := ih hOld
        refine ⟨q, pre, post ++ [x], by simp, fun y hy => ?_⟩
        obtain hIn | hLast := List.mem_append.mp hy
        · exact hPost y hIn
        · rw [List.mem_singleton.mp hLast]
          exact hx
      · rw [← List.mem_singleton.mp hNew] at hx
        exact absurd rfl hx

section

variable {pre post : List (Nat × Op)} (hDone : ∀ x ∈ log, Done m base x.1 log)
include hDone

theorem LastVersion.table (h : LastVersion m pid pre post log) : tableOf m log = tableOf m pre := by
  obtain ⟨hLog, hPost⟩ := h
  rw [hLog]
  refine tableOf_append fun x hx p d i hEq => ?_
  obtain rfl | hx := List.mem_cons.mp hx
  · cases hEq
  · obtain ⟨q, o⟩ := x
    cases hEq
    obtain ⟨s, t, rfl⟩ := List.append_of_mem hx
    have hMem : (q, .redis (.zaddTotal m p d i)) ∈ log := by
      rw [hLog]
      simp
    have hSplit : log = (pre ++ (pid, .redis (.incrLbVersion m)) :: s) ++
        (q, .redis (.zaddTotal m p d i)) :: t := by
      rw [hLog]
      simp
    have hLater := (hDone _ hMem).version_after hSplit
    exact hPost _ (List.mem_append_right _ (List.mem_cons_of_mem _ hLater)) rfl

theorem LastVersion.greatest (h : LastVersion m pid pre post log)
    {u : Nat × List LeaderboardEntry} (hu : Update m base pid u log) :
    ∀ u' ∈ updates log, u' ≠ u → u'.1 < u.1 := by
  intro u' hu' hNe
  obtain ⟨hLog, hPost⟩ := h
  obtain ⟨q, code, hIn⟩ := mem_updates.mp hu'
  obtain ⟨u'', hu''⟩ := (hDone _ hIn).update
  obtain rfl := hu''.only code u' hIn
  have hq : q ≠ pid := by
    rintro rfl
    exact hNe (hu.only code u' hIn)
  have hEarlier : (q, .redis (.incrLbVersion m)) ∈ pre := by
    have hMem := hu''.version
    rw [hLog] at hMem
    obtain hPre | hRest := List.mem_append.mp hMem
    · exact hPre
    · obtain hEq | hAfter := List.mem_cons.mp hRest
      · exact absurd (Prod.mk.inj hEq).1 hq
      · exact absurd rfl (hPost _ hAfter)
  obtain ⟨s, t, rfl⟩ := List.append_of_mem hEarlier
  have hMine := hu.versioned _ _ hLog
  have hHis := hu''.versioned s (t ++ (pid, .redis (.incrLbVersion m)) :: post) (by rw [hLog]; simp)
  rw [versions_append] at hMine
  have hOne : versions m ((q, .redis (.incrLbVersion m)) :: t) = versions m t + 1 :=
    List.countP_cons_of_pos (by simp)
  omega

end

/-- What a client that gets these updates in this order shows. -/
def shown (delivered : List (Nat × List LeaderboardEntry)) : List (Id × Int) :=
  rowsOf (delivered.foldl (fun s u => s.applyLeaderboardUpdated u.1 u.2)
    Client.emptyState).leaderboard.top

/-- The increments between the read and the version of the hook that takes the last
version leave the top ten as it was. -/
def Undisturbed (m : Id) (log : List (Nat × Op)) : Prop :=
  ∀ pid pre post a c, LastVersion m pid pre post log →
    pre = a ++ (pid, .redis (.zrevrange m 10)) :: c →
      zrevrange (tableOf m pre) 10 = zrevrange (tableOf m a) 10

theorem shown_last {pre post : List (Nat × Op)} {delivered : List (Nat × List LeaderboardEntry)}
    (hDone : ∀ x ∈ log, Done m base x.1 log) (h : LastVersion m pid pre post log)
    (hRead : pre = a ++ (pid, .redis (.zrevrange m 10)) :: c)
    (hPerm : delivered.Perm (updates log)) : shown delivered = zrevrange (tableOf m a) 10 := by
  have hMem : (pid, .redis (.incrLbVersion m)) ∈ log := by
    rw [h.1]
    simp
  obtain ⟨u, hu⟩ := (hDone _ hMem).update
  have hBest : ∀ u' ∈ delivered, u' ≠ u → u'.1 < u.1 :=
    fun u' hu' => h.greatest hDone hu u' (hPerm.mem_iff.mp hu')
  have hStart : Client.emptyState.leaderboard.version < u.1 := by
    have hNonneg : (0 : Int) ≤ u.1 := Int.natCast_nonneg _
    change (-1 : Int) < u.1
    omega
  rw [shown, Client.foldl_applyLeaderboardUpdated hBest (.inl ⟨hStart, hPerm.mem_iff.mpr hu.sent⟩)]
  refine hu.read a (c ++ (pid, .redis (.incrLbVersion m)) :: post) ?_
  rw [h.1, hRead]
  simp

theorem kept_done {r : Redis} {S : HooksState} (hEmpty : r.leaderboard m = [])
    (h : (hooks m).Reach (fun _ _ => True) (start r) S) (hEnded : S.procs.all Proc.ended = true) :
    ∀ x ∈ S.shared.log, Done m (r.lbVersion m) x.1 S.shared.log := by
  intro x hx
  have hKept := sound.kept (kept_start hEmpty) h
  have hLt : x.1 < S.procs.length := hKept.inv.pids x hx
  obtain ⟨res, hProg⟩ := Proc.ended_iff.mp (List.all_eq_true.mp hEnded _ (List.getElem_mem hLt))
  have hProc : S.procs[x.1]? = some ⟨S.procs[x.1].task, .done res⟩ := by
    rw [List.getElem?_eq_getElem hLt, ← hProg]
  exact hKept.post hProc

/-- Over every run of any number of hooks and every order of delivery: when all hooks have
ended and all updates are delivered, the clients show the top ten of the final set if and
only if the hook that took the last version was undisturbed. -/
theorem leaderboard_converges_iff {r : Redis} {S : HooksState} (hEmpty : r.leaderboard m = [])
    (h : (hooks m).Reach (fun _ _ => True) (start r) S) (hEnded : S.procs.all Proc.ended = true) :
    (∀ delivered, delivered.Perm (updates S.shared.log) →
      shown delivered = zrevrange (S.shared.redis.leaderboard m) 10) ↔
        Undisturbed m S.shared.log := by
  have hDone := kept_done hEmpty h hEnded
  have hTable : S.shared.redis.leaderboard m = tableOf m S.shared.log :=
    (sound.kept (kept_start hEmpty) h).inv.table
  rw [hTable]
  constructor
  · intro hShown pid pre post a c hLast hRead
    rw [← hLast.table hDone, ← hShown _ (List.Perm.refl _)]
    exact shown_last hDone hLast hRead (List.Perm.refl _)
  · intro hUndisturbed delivered hPerm
    by_cases hNone : S.shared.log = []
    · rw [hNone] at hPerm ⊢
      rw [List.perm_nil.mp hPerm]
      rfl
    · obtain ⟨x, hx⟩ := List.exists_mem_of_ne_nil _ hNone
      obtain ⟨u, hu⟩ := (hDone x hx).update
      obtain ⟨pid, pre, post, hLast⟩ := exists_lastVersion hu.version
      have hMem : (pid, .redis (.incrLbVersion m)) ∈ S.shared.log := by
        rw [hLast.1]
        simp
      obtain ⟨a, c, hRead⟩ := List.append_of_mem ((hDone _ hMem).read_before hLast.1)
      rw [shown_last hDone hLast hRead hPerm, hLast.table hDone]
      exact (hUndisturbed pid pre post a c hLast hRead).symm

end

namespace Demo

def hook (participantId score : Nat) (nickname : String) : Hook :=
  ⟨⟨participantId + 100, 54, 56, participantId, [61], true, score, 900, nickname⟩, 51, nickname, "QUIZ"⟩

def calls (pid n : Nat) : List HooksLabel := List.replicate n (.op pid 0)

def inTurn : List HooksLabel :=
  [.env (hook 21 900 "Ann"), .env (hook 22 400 "Bob")] ++ calls 0 9 ++ calls 1 9

/-- The first hook has read the top ten; the second one runs from its increment to its end
before the first takes its version. -/
def overtaken : List HooksLabel :=
  [.env (hook 21 900 "Ann"), .env (hook 22 400 "Bob")] ++ calls 0 5 ++ calls 1 9 ++ calls 0 4

end Demo

/-- Two answers of one match, the hooks one after the other. -/
theorem leaderboard_converges_iff_in_turn : ∃ S : HooksState, S.procs.length = 2 ∧
    (∀ delivered, delivered.Perm (updates S.shared.log) →
      shown delivered = zrevrange (S.shared.redis.leaderboard 54) 10) ∧
    Undisturbed 54 S.shared.log := by
  have hRun : ((hooks 54).run (start .empty) Demo.inTurn).any (fun S => S.procs.length = 2 ∧
      S.procs.all Proc.ended = true ∧ (updates S.shared.log).permutations'.all fun delivered =>
        shown delivered = zrevrange (S.shared.redis.leaderboard 54) 10) = true := by
    decide +kernel
  obtain ⟨S, hReach, hS⟩ := Machine.Reach.exists_of_run hRun
  obtain ⟨hTwo, hEnded, hAll⟩ := of_decide_eq_true hS
  have hShown : ∀ delivered, delivered.Perm (updates S.shared.log) →
      shown delivered = zrevrange (S.shared.redis.leaderboard 54) 10 := by
    intro delivered hPerm
    exact of_decide_eq_true (List.all_eq_true.mp hAll delivered (List.mem_permutations'.mpr hPerm))
  exact ⟨S, hTwo, hShown, (leaderboard_converges_iff rfl hReach hEnded).mp hShown⟩

/-- The update with the greater version carries the older list, so Bob is missing from
every client's leaderboard. -/
theorem leaderboard_overtaken : ∃ S : HooksState,
    (hooks 54).Reach (fun _ _ => True) (start .empty) S ∧ S.procs.all Proc.ended = true ∧
    ∃ delivered, delivered.Perm (updates S.shared.log) ∧
      shown delivered ≠ zrevrange (S.shared.redis.leaderboard 54) 10 := by
  have hRun : ((hooks 54).run (start .empty) Demo.overtaken).any (fun S =>
      S.procs.all Proc.ended = true ∧
      shown (updates S.shared.log) ≠ zrevrange (S.shared.redis.leaderboard 54) 10) = true := by
    decide +kernel
  obtain ⟨S, hReach, hS⟩ := Machine.Reach.exists_of_run hRun
  obtain ⟨hEnded, hShown⟩ := of_decide_eq_true hS
  exact ⟨S, hReach, hEnded, _, List.Perm.refl _, hShown⟩

end LiveQuiz.Hooks
