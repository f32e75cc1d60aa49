import LiveQuiz.Authoring.Walk

/-! # Fresh lists

A list request that has read its rows before a change commits may write them to the cache
after the change's invalidation is over, and the moderator's hiding invalidates nothing.
Where no list is cached at a hiding, and a list is cached only while every change since its
rows were read has still to remove it, a list asked for after a change has returned shows
the change.
-/

namespace LiveQuiz.Authoring

open Coroutine

set_option autoImplicit false

def Sweep.covers (k : Key) : Sweep → Bool
  | .idle => false
  | .due => true
  | .under owed returned => k ∈ owed ∨ k ∈ returned

def fillsCovered (w : World) (k : Key) (asOf : Nat) : Bool :=
  (w.log.drop asOf).all fun q => (w.sweep q).covers k

def admitted (w : World) (o : Op) (d : Decision) : Bool :=
  match o with
  | .setCached k _ asOf => d.fault = .fail || fillsCovered w k asOf
  | .commit => d.fault ≠ .lost
  | .scan _ | .unlink _ => d.fault = .none
  | _ => true

def hidesUncached (S : SysState) : SysLabel → Bool
  | .op pid d =>
    match S.procs[pid]? with
    | some ⟨.hide _, .call .commit _⟩ => d.fault = .fail || S.shared.cache.isEmpty
    | _ => true
  | .env _ => true

def freshFills (S : SysState) (l : SysLabel) : Bool :=
  Machine.admits admitted (fun _ _ => true) S l && hidesUncached S l

def careful (G : Trigram) : Mach := (authoring G).restrict admitted fun _ _ => true

variable {G : Trigram}

theorem narrows_careful (G : Trigram) : Narrows (careful G) := ⟨G, fun h => (restrict_exec h).2⟩

theorem careful_careful : Careful (careful G) where
  commit h := by simpa [admitted] using (restrict_exec h).1
  scan h := by simpa [admitted] using (restrict_exec h).1
  unlink h := by simpa [admitted] using (restrict_exec h).1

section

variable {w v : World} {job : Job} {pid q n : Nat} {o : Op} {d : Decision} {out : Answer o}

def settling : Contract World Op Exn Reply Job :=
  { contract with post := fun pid _ _ w => (w.sweep pid).Settled }

theorem settling_sound : Sound (careful G) settling where
  rely_trans := (sound G).rely_trans
  rely_refl := (sound G).rely_refl
  post_rely _ _ _ _ _ h hRely := h.shrink hRely.2
  exec w job pid n o d out hInv hReq hPid hExec := by
    have hOut := (restrict_exec hExec).2
    obtain ⟨hInv', hRely, -⟩ := (sound G).exec w job pid n o d out hInv hReq hPid hOut
    refine ⟨hInv', hRely, fun t' hNew => ?_⟩
    rw [exec_spawned n hOut] at hNew
    cases hNew
  env w n e res hInv hEnv := by
    have hRes : env w n e = some res := (restrict_env hEnv).2
    obtain ⟨hInv', hRely, -⟩ := (sound G).env w n e res hInv hRes
    refine ⟨hInv', hRely, fun t' _ => wp_promise _ ?_⟩
    have hIdle : res.1.own n = .none := (env_rely n hRes n).1.trans (hInv n le_rfl)
    refine wp_mono (settles_request (careful G) (narrows_careful G) res.1 hIdle) fun r v hEnd => ?_
    cases r with
    | ok a => exact hEnd
    | error e => exact hEnd careful_careful

theorem admits_of_freshFills {S : SysState} {l : SysLabel} (h : freshFills S l = true) :
    Machine.admits admitted (fun _ _ => true) S l = true := (Bool.and_eq_true_iff.mp h).1

theorem careful_reach {S S' : SysState} (h : (authoring G).Reach (fun S l => freshFills S l = true) S S') :
    (careful G).Reach (fun _ _ => True) S S' :=
  Machine.Reach.restrict (h.mono fun _ _ => admits_of_freshFills)

theorem settling_kept {S : SysState} (h : (authoring G).Reach (fun S l => freshFills S l = true) initial S) :
    Kept (careful G) settling S := by
  refine settling_sound.kept ⟨fun _ _ => rfl, fun _ _ hp => ?_⟩ (careful_reach h)
  simp [initial] at hp

/-- Of a cached list, every change since its rows were read will remove it. -/
def Fresh (w : World) : Prop :=
  ∀ e ∈ w.cache, ∀ q ∈ w.log.drop e.2.2, (w.sweep q).covers e.1 = true

theorem covers_settled {s : Sweep} (h : s.Settled) (k : Key) : s.covers k = false := by
  obtain rfl | rfl := h
  · rfl
  · simp [Sweep.covers]

theorem covers_without {s : Sweep} {k : Key} {ks : List Key} (h : s.covers k = true) (hk : k ∉ ks) :
    (s.without ks).covers k = true := by
  cases s with
  | idle => cases h
  | due => rfl
  | under owed returned =>
    have hIn : k ∈ owed ∨ k ∈ returned := of_decide_eq_true h
    simp only [Sweep.without, Sweep.covers, decide_eq_true_eq, List.mem_filter]
    exact hIn.imp (fun h => ⟨h, hk⟩) (fun h => ⟨h, hk⟩)

theorem Fresh.remove (h : Fresh w) (ks : List Key) : Fresh (w.remove ks) := by
  intro e he q hq
  obtain ⟨hOld, hKey⟩ := List.mem_filter.mp he
  exact covers_without (h e hOld q hq) (of_decide_eq_true hKey)

theorem Fresh.congr (h : Fresh w) (hCache : v.cache = w.cache) (hLog : v.log = w.log)
    (hSweep : v.sweep = w.sweep) : Fresh v := by
  unfold Fresh
  rw [hCache, hLog, hSweep]
  exact h

theorem Fresh.scanned {cursor next : Nat} {batch : List Key} (h : Fresh w)
    (hCursor : cursor ≠ 0 → (w.sweep pid).phase = .under)
    (hScan : scanned w pid cursor next batch = some v) : Fresh v := by
  obtain ⟨-, hEq⟩ := Option.ite_none_right_eq_some.mp hScan
  rw [← Option.some.inj hEq]
  intro e he q hq
  change (Function.update w.sweep pid _ q).covers e.1 = true
  have hOld := h e he q hq
  by_cases hPid : q = pid
  swap
  · rw [Function.update_of_ne hPid]
    exact hOld
  subst hPid
  rw [Function.update_self]
  simp only [Sweep.covers, List.mem_append, List.mem_filter, decide_eq_true_eq]
  by_cases hBatch : e.1 ∈ batch
  · exact .inr (.inr hBatch)
  split
  · exact .inl ⟨List.mem_map_of_mem he, hBatch⟩
  next hNext =>
    have hPhase := hCursor hNext
    cases hs : w.sweep q with
    | under owed returned =>
      rw [hs] at hOld
      exact (of_decide_eq_true hOld).imp (fun h => ⟨h, hBatch⟩) .inl
    | _ =>
      rw [hs] at hPhase
      cases hPhase

theorem mem_drop_snoc {p q a : Nat} {log : List Nat} (h : p ∈ (log ++ [q]).drop a) :
    p ∈ log.drop a ∨ p = q := by
  rw [List.drop_append] at h
  obtain h | h := List.mem_append.mp h
  · exact .inl h
  · exact .inr (List.mem_singleton.mp (List.mem_of_mem_drop h))

theorem Fresh.commit (h : Fresh w) (hHide : ∀ i, job = .hide i → w.cache = []) :
    Fresh (w.commit job pid) := by
  intro e he q hq
  change e ∈ w.cache at he
  change (Function.update w.sweep pid _ q).covers e.1 = true
  by_cases hPid : q = pid
  · subst hPid
    rw [Function.update_self]
    cases job with
    | hide i =>
      rw [hHide i rfl] at he
      cases he
    | _ => rfl
  · rw [Function.update_of_ne hPid]
    obtain hOld | hNew := mem_drop_snoc hq
    · exact h e he q hOld
    · exact absurd hNew hPid

theorem Fresh.set {k : Key} {body : Body} {asOf : Nat} (h : Fresh w)
    (hFills : fillsCovered w k asOf = true) :
    Fresh { w with cache := (k, body, asOf) :: w.cache.filter (·.1 ≠ k) } := by
  intro e he q hq
  obtain rfl | he := List.mem_cons.mp he
  · exact List.all_eq_true.mp hFills q hq
  · exact h e (List.mem_of_mem_filter he) q hq

theorem fresh_perform (h : Fresh w) (hReq : Req pid job w o) (hOk : perform G w job pid o d = some out)
    (hFills : ∀ k body asOf, o = .setCached k body asOf → fillsCovered w k asOf = true)
    (hHide : ∀ i, job = .hide i → o = .commit → w.cache = []) : Fresh out.shared := by
  cases o with
  | flush ws =>
    obtain ⟨-, ⟨hEq, -⟩ | ⟨hEq, -⟩⟩ := perform_flush hOk
    · rw [hEq]
      exact h.congr rfl rfl rfl
    · rw [hEq]
      exact h
  | shift ids s delta =>
    obtain ⟨-, rows, ⟨hEq, -⟩ | ⟨hEq, -⟩⟩ := perform_shift hOk
    · rw [hEq]
      exact h.congr rfl rfl rfl
    · rw [hEq]
      exact h
  | commit =>
    cases hOk
    exact h.commit fun i hJob => hHide i hJob rfl
  | setCached k body asOf =>
    cases hOk
    exact h.set (hFills k body asOf rfl)
  | scan cursor =>
    obtain ⟨v, hScan, rfl⟩ := Option.map_eq_some_iff.mp hOk
    exact h.scanned hReq hScan
  | unlink ks =>
    cases hOk
    exact h.remove ks
  | stall => cases hOk
  | _ =>
    cases hOk
    exact h.congr rfl rfl rfl

end

theorem fresh_reach {S : SysState} (h : (authoring G).Reach (fun S l => freshFills S l = true) initial S) :
    Fresh S.shared := by
  induction h with
  | refl => exact fun e he => by cases he
  | @tail S₁ _ _ hReach hCond hStep ih =>
    have hKept := kept_of_reach hReach
    obtain ⟨hAdmits, hHides⟩ := Bool.and_eq_true_iff.mp hCond
    obtain ⟨pid, d, t, o, k, out, rfl, hProc, hExec, rfl⟩ | ⟨e, res, rfl, hEnv, rfl⟩ :=
      Machine.step_cases hStep
    · obtain hEq | ⟨a, ha, hEffect, hEq⟩ := faulty_shared hExec
      · rw [hEq]
        exact ih
      · rw [hEq]
        refine fresh_perform ih (hKept.req (sound G) hProc) ha ?_ ?_
        · rintro key body asOf rfl
          simp only [Machine.admits, hProc, admitted, Bool.or_eq_true, decide_eq_true_eq] at hAdmits
          exact hAdmits.resolve_left hEffect
        · rintro i rfl rfl
          simp only [hidesUncached, hProc, Bool.or_eq_true, decide_eq_true_eq, List.isEmpty_iff] at hHides
          exact hHides.resolve_left hEffect
    · cases e with
      | expire k =>
        cases hEnv
        exact ih.remove [k]
      | _ =>
        cases hEnv
        exact ih.congr rfl rfl rfl

/-- The change of `p` is in every list that is cached, or will be. -/
structure Shown (p : Nat) (w : World) : Prop where
  committed : p ∈ w.log
  settled : (w.sweep p).Settled
  cached : ∀ e ∈ w.cache, p ∉ w.log.drop e.2.2

/-- For the requests from the number `first` on. -/
def showing (p first : Nat) : Contract World Op Exn Reply Job where
  inv n w := first ≤ n ∧ Shown p w
  rely _ w v := w.log <+: v.log
  req pid _ _ _ := pid ≠ p
  post pid job r w := first ≤ pid → ∀ viewer f body asOf, job = .list viewer f →
    r = .ok (.listed body asOf) → p ∈ w.log.take asOf

section

variable {w v : World} {job : Job} {p pid first n asOf : Nat} {o : Op} {d : Decision} {out : Answer o}

theorem mem_take_of_not_drop (h : p ∈ w.log) (hNot : p ∉ w.log.drop asOf) : p ∈ w.log.take asOf := by
  rw [← List.take_append_drop asOf w.log] at h
  exact (List.mem_append.mp h).resolve_right hNot

theorem mem_take_extend (h : p ∈ w.log.take asOf) (hLog : w.log <+: v.log) : p ∈ v.log.take asOf := by
  obtain ⟨rest, hEq⟩ := hLog
  rw [← hEq, List.take_append]
  exact List.mem_append_left _ h

theorem Shown.congr (h : Shown p w) (hLog : v.log = w.log) (hSweep : v.sweep = w.sweep)
    (hCache : v.cache = w.cache) : Shown p v := by
  constructor
  · rw [hLog]
    exact h.committed
  · rw [hSweep]
    exact h.settled
  · rw [hLog, hCache]
    exact h.cached

theorem Shown.remove (h : Shown p w) (ks : List Key) : Shown p (w.remove ks) := by
  constructor
  · exact h.committed
  · exact h.settled.shrink (Sweep.shrinks_without _ ks)
  · intro e he
    exact h.cached e (List.mem_of_mem_filter he)

theorem shown_perform (h : Shown p w) (hPid : pid ≠ p) (hOk : perform G w job pid o d = some out)
    (hFills : ∀ k body asOf, o = .setCached k body asOf → fillsCovered w k asOf = true) :
    Shown p out.shared ∧ w.log <+: out.shared.log := by
  cases o with
  | flush ws =>
    obtain ⟨-, ⟨hEq, -⟩ | ⟨hEq, -⟩⟩ := perform_flush hOk
    · rw [hEq]
      exact ⟨h.congr rfl rfl rfl, List.prefix_refl _⟩
    · rw [hEq]
      exact ⟨h, List.prefix_refl _⟩
  | shift ids s delta =>
    obtain ⟨-, rows, ⟨hEq, -⟩ | ⟨hEq, -⟩⟩ := perform_shift hOk
    · rw [hEq]
      exact ⟨h.congr rfl rfl rfl, List.prefix_refl _⟩
    · rw [hEq]
      exact ⟨h, List.prefix_refl _⟩
  | commit =>
    cases hOk
    refine ⟨⟨List.mem_append_left _ h.committed, ?_, fun e he hDrop => ?_⟩, List.prefix_append _ _⟩
    · change (Function.update w.sweep pid _ p).Settled
      rw [Function.update_of_ne hPid.symm]
      exact h.settled
    · obtain hOld | hNew := mem_drop_snoc hDrop
      · exact h.cached e he hOld
      · exact hPid hNew.symm
  | setCached k body asOf =>
    cases hOk
    refine ⟨⟨h.committed, h.settled, fun e he hDrop => ?_⟩, List.prefix_refl _⟩
    obtain rfl | he := List.mem_cons.mp he
    · have hCovers := List.all_eq_true.mp (hFills k body asOf rfl) p hDrop
      rw [covers_settled h.settled] at hCovers
      cases hCovers
    · exact h.cached e (List.mem_of_mem_filter he) hDrop
  | scan cursor =>
    obtain ⟨v, hScan, rfl⟩ := Option.map_eq_some_iff.mp hOk
    obtain ⟨s, rfl⟩ := scanned_eq hScan
    refine ⟨⟨h.committed, ?_, h.cached⟩, List.prefix_refl _⟩
    change (Function.update w.sweep pid _ p).Settled
    rw [Function.update_of_ne hPid.symm]
    exact h.settled
  | unlink ks =>
    cases hOk
    exact ⟨h.remove ks, List.prefix_refl _⟩
  | stall => cases hOk
  | _ =>
    cases hOk
    exact ⟨h.congr rfl rfl rfl, List.prefix_refl _⟩

theorem shown_exec (h : Shown p w) (hPid : pid ≠ p)
    (hExec : (careful G).exec w job pid n o d = some out) : Shown p out.shared ∧ w.log <+: out.shared.log := by
  obtain ⟨hAdmitted, hOut⟩ := restrict_exec hExec
  obtain hEq | ⟨a, ha, hEffect, hEq⟩ := faulty_shared hOut
  · rw [hEq]
    exact ⟨h, List.prefix_refl _⟩
  · rw [hEq]
    refine shown_perform h hPid ha ?_
    rintro k body asOf rfl
    simp only [admitted, Bool.or_eq_true, decide_eq_true_eq] at hAdmitted
    exact hAdmitted.resolve_left hEffect

theorem wp_listQuizSets {viewer : Option Id} {f : Filter} (hPid : pid ≠ p) :
    wp (careful G) (showing p first) pid (.list viewer f) (inSession (listQuizSets viewer f))
      (fun r w => ∀ body asOf, r = .ok (.listed body asOf) → p ∈ w.log.take asOf) w := by
  have hErr : ∀ (e : Exn) (v : World), wp (careful G) (showing p first) pid (.list viewer f)
      (ask .rollback >>= fun _ => (throw e : Coro Reply))
      (fun r w => ∀ body asOf, r = .ok (.listed body asOf) → p ∈ w.log.take asOf) v := by
    intro e v
    refine wp_bind (wp_perform fun v₁ fresh _ _ _ => ⟨hPid, fun d out _ => ?_⟩)
    cases out.result with
    | ok a =>
      intro body asOf hEq
      cases hEq
    | error e =>
      intro body asOf hEq
      cases hEq
  refine wp_handle (wp_bind (wp_perform fun w₁ fresh _ _ hInv => ⟨hPid, fun d out hExec => ?_⟩))
  cases hRes : out.result with
  | error e => exact hErr e _
  | ok hit =>
    have hFine := (faulty_ok ((restrict_exec hExec).2) hRes).2
    cases hFine
    cases hRes
    cases hLookup : w₁.cache.lookup (quizListCacheKey viewer f) with
    | some entry =>
      obtain ⟨body, asOf⟩ := entry
      obtain ⟨before, after, hCache, -⟩ := List.lookup_eq_some_iff.mp hLookup
      have hMem : (quizListCacheKey viewer f, body, asOf) ∈ w₁.cache := by
        rw [hCache]
        exact List.mem_append_right _ List.mem_cons_self
      rintro _ _ ⟨⟩
      exact mem_take_of_not_drop hInv.2.committed (hInv.2.cached _ hMem)
    | none =>
      refine wp_bind (wp_perform fun w₂ fresh _ hRely hInv₂ => ⟨hPid, fun d out hExec => ?_⟩)
      cases hRes : out.result with
      | error e => exact hErr e _
      | ok rows =>
        have hFine := (faulty_ok ((restrict_exec hExec).2) hRes).2
        cases hFine
        cases hRes
        refine wp_bind (wp_perform fun w₃ fresh _ hRely₃ hInv₃ => ⟨hPid, fun d out hExec => ?_⟩)
        have hLog := (shown_exec hInv₃.2 hPid hExec).2
        cases hRes : out.result with
        | error e => exact hErr e _
        | ok a =>
          rintro _ _ ⟨⟩
          have hTake : p ∈ w₂.log.take w₂.log.length := by
            rw [List.take_length]
            exact hInv₂.2.committed
          exact mem_take_extend (mem_take_extend hTake hRely₃) hLog

theorem showing_sound (hp : p < first) : Sound (careful G) (showing p first) where
  rely_trans _ _ _ _ h h' := h.trans h'
  rely_refl _ _ := List.prefix_refl _
  post_rely pid job r w v h hRely hFirst viewer f body asOf hJob hEq :=
    mem_take_extend (h hFirst viewer f body asOf hJob hEq) hRely
  exec w job pid n o d out hInv hReq hPid hExec := by
    obtain ⟨hShown, hLog⟩ := shown_exec hInv.2 hReq hExec
    have hSpawned := exec_spawned n ((restrict_exec hExec).2)
    refine ⟨?_, fun _ _ _ => hLog, fun t' hNew => ?_⟩
    · rw [hSpawned]
      exact ⟨hInv.1, hShown⟩
    · rw [hSpawned] at hNew
      cases hNew
  env w n e res hInv hEnv := by
    have hRes : env w n e = some res := (restrict_env hEnv).2
    have hShown : Shown p res.1 ∧ res.1.log = w.log := by
      cases e with
      | expire k =>
        cases hRes
        exact ⟨hInv.2.remove [k], rfl⟩
      | _ =>
        cases hRes
        exact ⟨hInv.2.congr rfl rfl rfl, rfl⟩
    have hLog : w.log <+: res.1.log := by simp [hShown.2]
    have hn : n ≠ p := Nat.ne_of_gt (lt_of_lt_of_le hp hInv.1)
    refine ⟨⟨le_trans hInv.1 (Nat.le_add_right _ _), hShown.1⟩, fun _ _ => hLog, fun t' _ => ?_⟩
    cases t' with
    | list viewer f =>
      refine wp_mono (wp_listQuizSets hn) fun r v hr _ viewer' f' body asOf _ hEq => ?_
      exact hr body asOf hEq
    | _ =>
      refine wp_free (fun _ _ => hn) fun r v _ viewer f body asOf hJob => ?_
      cases hJob

end

/-- A list request that starts after a change's request has ended shows the change: its rows
were read when the change had committed. -/
theorem list_shows_change {S S' : SysState}
    (h : (authoring G).Reach (fun S l => freshFills S l = true) initial S)
    (h' : (authoring G).Reach (fun S l => freshFills S l = true) S S') {p : Nat} {job : Job}
    {r : Except Exn Reply} (hp : S.procs[p]? = some ⟨job, .done r⟩) (hCommitted : p ∈ S.shared.log)
    {pid : Nat} {viewer : Option Id} {f : Filter} {body : Body} {asOf : Nat}
    (hLater : S.procs.length ≤ pid)
    (hList : S'.procs[pid]? = some ⟨.list viewer f, .done (.ok (.listed body asOf))⟩) :
    p ∈ S'.shared.log.take asOf := by
  have hSettled : (S.shared.sweep p).Settled := (settling_kept h).post hp
  have hLt : p < S.procs.length := (List.getElem?_eq_some_iff.mp hp).1
  have hShown : Shown p S.shared := by
    refine ⟨hCommitted, hSettled, fun e he hDrop => ?_⟩
    have hCovers := fresh_reach h e he p hDrop
    rw [covers_settled hSettled] at hCovers
    cases hCovers
  have hKept : Kept (careful G) (showing p S.procs.length) S := by
    refine ⟨⟨le_rfl, hShown⟩, fun q proc hq => ?_⟩
    have hqLt : q < S.procs.length := (List.getElem?_eq_some_iff.mp hq).1
    have hPost : ∀ r v, (showing p S.procs.length).post q proc.task r v :=
      fun r v hFirst => absurd hFirst (Nat.not_le_of_lt hqLt)
    by_cases hqp : q = p
    · subst hqp
      rw [hp] at hq
      cases hq
      exact hPost _ _
    · exact wp_free (fun _ _ => hqp) hPost
  have hKept' := (showing_sound hLt).kept hKept (careful_reach h')
  exact hKept'.post hList hLater viewer f body asOf rfl rfl

namespace Demo

def cachedList : List SysLabel :=
  request (.create 1 ⟨"sums", none, .pub, []⟩ 1) :: calls 0 [10, 0, 0, 0, 0] ++
  request (.list (some 1) {}) :: calls 1 [0, 0, 0]

def ownKey : Key := quizListCacheKey (some 1) {}

/-- The owner changes the title; the invalidation removes the list. -/
def retitled (pid : Nat) : List SysLabel :=
  request (.patch 1 10 { title := some "products" } 1) :: calls pid [0, 0, 0] ++
  [.op pid { keys := [ownKey] }] ++ calls pid [0, 0]

/-- A list request that has read its rows waits while the title changes. -/
def lateFill : List SysLabel :=
  request (.create 1 ⟨"sums", none, .pub, []⟩ 1) :: calls 0 [10, 0, 0, 0, 0] ++
  request (.list (some 1) {}) :: calls 1 [0, 0] ++
  request (.patch 1 10 { title := some "products" } 1) :: calls 2 [0, 0, 0, 0, 0] ++ calls 1 [0]

def hidden : List SysLabel := cachedList ++ request (.hide 10) :: calls 2 [0, 0, 0]

def again (pid count : Nat) : List SysLabel :=
  request (.list (some 1) {}) :: calls pid (List.replicate count 0)

/-- The titles and the versions a list request has answered. -/
def listed (S : SysState) (pid : Nat) : Option (List (String × Nat) × Nat) :=
  match S.procs[pid]? with
  | some ⟨.list _ _, .done (.ok (.listed body asOf))⟩ => some (body.items.map fun r => (r.title, r.version), asOf)
  | _ => none

def returned (S : SysState) (pid count : Nat) : Bool :=
  S.procs[pid]?.any (·.ended) && S.shared.log.contains pid && S.procs.length == count

end Demo

theorem listed_spec {S : SysState} {pid asOf : Nat} {rows : List (String × Nat)}
    (h : Demo.listed S pid = some (rows, asOf)) : ∃ viewer f body, S.procs[pid]? =
      some ⟨.list viewer f, .done (.ok (.listed body asOf))⟩ ∧
      body.items.map (fun r => (r.title, r.version)) = rows := by
  unfold Demo.listed at h
  split at h
  next hProc =>
    cases h
    exact ⟨_, _, _, hProc, rfl⟩
  · cases h

theorem returned_spec {S : SysState} {pid count : Nat} (h : Demo.returned S pid count = true) :
    (∃ job r, S.procs[pid]? = some ⟨job, .done r⟩) ∧ pid ∈ S.shared.log ∧ S.procs.length = count := by
  simp only [Demo.returned, Bool.and_eq_true, beq_iff_eq, List.contains_iff_mem] at h
  obtain ⟨⟨hEnded, hLog⟩, hCount⟩ := h
  refine ⟨?_, hLog, hCount⟩
  cases hProc : S.procs[pid]? with
  | none =>
    rw [hProc] at hEnded
    cases hEnded
  | some proc =>
    rw [hProc] at hEnded
    obtain ⟨r, hr⟩ := Proc.ended_iff.mp hEnded
    exact ⟨proc.task, r, by rw [← hr]⟩

theorem list_shows_change_retitled : ∃ S S' : SysState,
    Demo.machine.Reach (fun S l => freshFills S l = true) initial S ∧
    Demo.machine.Reach (fun S l => freshFills S l = true) S S' ∧
    Demo.listed S 1 = some ([("sums", 1)], 1) ∧ Demo.listed S' 3 = some ([("products", 2)], 2) ∧
    2 ∈ S'.shared.log.take 2 := by
  have hRun : (Demo.machine.runWhile freshFills initial (Demo.cachedList ++ Demo.retitled 2)).any (fun S =>
      Demo.returned S 2 3 && decide (Demo.listed S 1 = some ([("sums", 1)], 1)) &&
      (Demo.machine.runWhile freshFills S (Demo.again 3 3)).any fun S' =>
        decide (Demo.listed S' 3 = some ([("products", 2)], 2))) = true := by
    decide +kernel
  obtain ⟨S, hReach, hS⟩ := Machine.Reach.exists_of_runWhile hRun
  obtain ⟨hNow, hNext⟩ := Bool.and_eq_true_iff.mp hS
  obtain ⟨hReturned, hBefore⟩ := Bool.and_eq_true_iff.mp hNow
  obtain ⟨S', hReach', hS'⟩ := Machine.Reach.exists_of_runWhile hNext
  obtain ⟨⟨job, r, hProc⟩, hLog, hCount⟩ := returned_spec hReturned
  have hAfter : Demo.listed S' 3 = some ([("products", 2)], 2) := of_decide_eq_true hS'
  obtain ⟨viewer, f, body, hList, -⟩ := listed_spec hAfter
  refine ⟨S, S', hReach, hReach', of_decide_eq_true hBefore, hAfter, ?_⟩
  exact list_shows_change hReach hReach' hProc hLog (le_of_eq hCount) hList

/-- A list of the old title after the change of it has returned, and a list of the quiz as
it was after it has been hidden. -/
theorem list_misses_change : ∃ S S' T T' : SysState,
    Demo.machine.Reach (fun _ _ => True) initial S ∧ Demo.machine.Reach (fun _ _ => True) S S' ∧
    Demo.returned S 2 3 = true ∧ Demo.listed S' 3 = some ([("sums", 1)], 1) ∧
    S'.shared.db.quizzes.map (·.title) = ["products"] ∧ 2 ∉ S'.shared.log.take 1 ∧
    Demo.machine.Reach (fun _ _ => True) initial T ∧ Demo.machine.Reach (fun _ _ => True) T T' ∧
    Demo.returned T 2 3 = true ∧ Demo.listed T' 3 = some ([("sums", 1)], 1) ∧
    T'.shared.db.quizzes.map (·.version) = [2] ∧ 2 ∉ T'.shared.log.take 1 := by
  have hLate : (Demo.machine.run initial Demo.lateFill).any (fun S => Demo.returned S 2 3 &&
      (Demo.machine.run S (Demo.again 3 1)).any fun S' => decide (
        Demo.listed S' 3 = some ([("sums", 1)], 1) ∧ S'.shared.db.quizzes.map (·.title) = ["products"] ∧
        2 ∉ S'.shared.log.take 1)) = true := by
    decide +kernel
  have hHidden : (Demo.machine.run initial Demo.hidden).any (fun T => Demo.returned T 2 3 &&
      (Demo.machine.run T (Demo.again 3 1)).any fun T' => decide (
        Demo.listed T' 3 = some ([("sums", 1)], 1) ∧ T'.shared.db.quizzes.map (·.version) = [2] ∧
        2 ∉ T'.shared.log.take 1)) = true := by
    decide +kernel
  obtain ⟨S, hReach, hS⟩ := Machine.Reach.exists_of_run hLate
  obtain ⟨hReturned, hNext⟩ := Bool.and_eq_true_iff.mp hS
  obtain ⟨S', hReach', hS'⟩ := Machine.Reach.exists_of_run hNext
  obtain ⟨T, hReachT, hT⟩ := Machine.Reach.exists_of_run hHidden
  obtain ⟨hReturnedT, hNextT⟩ := Bool.and_eq_true_iff.mp hT
  obtain ⟨T', hReachT', hT'⟩ := Machine.Reach.exists_of_run hNextT
  obtain ⟨hListed, hTitle, hNot⟩ := of_decide_eq_true hS'
  obtain ⟨hListedT, hVersion, hNotT⟩ := of_decide_eq_true hT'
  exact ⟨S, S', T, T', hReach, hReach', hReturned, hListed, hTitle, hNot, hReachT, hReachT', hReturnedT,
    hListedT, hVersion, hNotT⟩

end LiveQuiz.Authoring
