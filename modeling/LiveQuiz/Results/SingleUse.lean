import LiveQuiz.Auth.Tokens
import LiveQuiz.Lib.Contract

/-! # Refresh tokens are single use

A call that returns leaves its token dead: revoked for as long as it is valid. Two calls
with one token can both return only if both have looked before either has revoked, or if
one looks at a time when the token and its revocation have expired.
-/

namespace LiveQuiz.Auth

open Coroutine

set_option autoImplicit false

/-- The token is not accepted by a call that looks before its expiry. -/
def Dead (O : Outside) (token : String) (w : World) : Prop :=
  ∀ c, O.verify token = some c → c.type = refreshType → micros c.exp ≤ w.now ∨
    ∃ e, w.revoked (revokedKey c.jti) = some e ∧ micros c.exp ≤ e

def Job.token : Job → String
  | .refresh token | .logout token => token

/-- What a step of others leaves to program `pid`. -/
structure Rely (O : Outside) (pid : Nat) (w v : World) : Prop where
  now : w.now ≤ v.now
  passed : v.passed pid = w.passed pid
  dead : ∀ token, Dead O token w → Dead O token v

/-- A key is set for a token and outlasts it, and is asked for by a refresh. -/
def Req (O : Outside) (job : Job) (w : World) : Op → Prop
  | .setEx k ttl => ∃ c, O.verify job.token = some c ∧ k = revokedKey c.jti ∧
    micros c.exp ≤ w.now + micros ttl
  | .exists' k => ∃ token c, job = .refresh token ∧ O.verify token = some c ∧
    c.type = refreshType ∧ k = revokedKey c.jti
  | _ => True

def contract (O : Outside) : Contract World Op Exn Ret Job where
  inv n w := ∀ q, n ≤ q → w.passed q = false
  rely := Rely O
  req _ := Req O
  post pid job r w := ∀ a, r = .ok a → Dead O job.token w ∧
    ((∃ token, job = .refresh token) → w.passed pid = true)

section

variable {O : Outside} {w v : World} {job : Job} {pid n : Nat} {token : String}

theorem Rely.refl (pid : Nat) (w : World) : Rely O pid w w := ⟨le_refl _, rfl, fun _ h => h⟩

theorem Rely.trans {u : World} (h : Rely O pid w v) (h' : Rely O pid v u) : Rely O pid w u :=
  ⟨h.now.trans h'.now, h'.passed.trans h.passed, fun t ht => h'.dead t (h.dead t ht)⟩

theorem Dead.later (h : Dead O token w) (hNow : w.now ≤ v.now) (hKey : v.revoked = w.revoked) :
    Dead O token v := by
  intro c hc hType
  rw [hKey]
  exact (h c hc hType).imp_left fun hExp => hExp.trans hNow

theorem revokedKey_inj {a b : String} (h : revokedKey a = revokedKey b) : a = b := by
  have hList := congrArg String.toList h
  simp only [revokedKey, String.toList_append] at hList
  exact String.toList_injective (List.append_cancel_left hList)

theorem Dead.set {c : Claims} {other : String} {ttl : Int} (h : Dead O token w)
    (hc : O.verify other = some c) (hTtl : micros c.exp ≤ w.now + micros ttl) :
    Dead O token { w with
      revoked := Function.update w.revoked (revokedKey c.jti) (some (w.now + micros ttl)) } := by
  intro c' hc' hType
  by_cases hJti : c'.jti = c.jti
  · right
    refine ⟨w.now + micros ttl, ?_, ?_⟩
    · rw [hJti]
      exact Function.update_self _ _ _
    · rw [O.jti_once token other c' c hc' hc hJti]
      exact hTtl
  · refine (h c' hc' hType).imp_right ?_
    rintro ⟨e, he, hExp⟩
    refine ⟨e, ?_, hExp⟩
    rw [← he]
    exact Function.update_of_ne (fun hEq => hJti (revokedKey_inj hEq)) _ _

theorem exec_cases (job : Job) (n : Nat) {o : Op} {d : Decision} {out : Answer o}
    (h : exec w job pid n o d = some out) :
    out.spawned = none ∧ ((d.fault = .none ∧ out = perform w pid o d) ∨
      (out.result = .error .fault ∧ (out.shared = w ∨
        out.shared = { (perform w pid o d).shared with passed := w.passed }))) := by
  unfold exec at h
  split at h
  next hNone =>
    cases h
    refine ⟨?_, .inl ⟨hNone, rfl⟩⟩
    cases o <;> rfl
  next =>
    split at h <;> cases h
    exact ⟨rfl, .inr ⟨rfl, .inl rfl⟩⟩
  next =>
    split at h <;> cases h
    exact ⟨rfl, .inr ⟨rfl, .inr rfl⟩⟩

theorem perform_effect (pid : Nat) {o : Op} (d : Decision) (hReq : Req O job w o) :
    (perform w pid o d).shared.now = w.now ∧
    (∀ q, q ≠ pid → (perform w pid o d).shared.passed q = w.passed q) ∧
    ∀ token, Dead O token w → Dead O token (perform w pid o d).shared := by
  cases o with
  | exists' k =>
    exact ⟨rfl, fun q hq => Function.update_of_ne hq _ _, fun t ht => ht.later (le_refl _) rfl⟩
  | setEx k ttl =>
    obtain ⟨c, hc, rfl, hTtl⟩ := hReq
    exact ⟨rfl, fun _ _ => rfl, fun t ht => ht.set hc hTtl⟩
  | _ => exact ⟨rfl, fun _ _ => rfl, fun _ ht => ht⟩

theorem exec_effect (n : Nat) {o : Op} {d : Decision} {out : Answer o}
    (h : exec w job pid n o d = some out)
    (hReq : Req O job w o) :
    w.now ≤ out.shared.now ∧ (∀ q, q ≠ pid → out.shared.passed q = w.passed q) ∧
      ∀ token, Dead O token w → Dead O token out.shared := by
  obtain ⟨hNow, hPassed, hDead⟩ := perform_effect pid d hReq
  obtain ⟨-, ⟨-, rfl⟩ | ⟨-, hEq | hEq⟩⟩ := exec_cases job n h
  · exact ⟨hNow.ge, hPassed, hDead⟩
  · rw [hEq]
    exact ⟨le_refl _, fun _ _ => rfl, fun _ ht => ht⟩
  · rw [hEq]
    refine ⟨hNow.ge, fun _ _ => rfl, fun t ht => ?_⟩
    exact (hDead t ht).later (le_refl _) rfl

theorem env_effect (n : Nat) {e : EnvAction} {out : World × Option Job} (h : env w n e = some out) :
    w.now ≤ out.1.now ∧ out.1.passed = w.passed ∧ ∀ token, Dead O token w → Dead O token out.1 := by
  cases e with
  | tick dt =>
    cases h
    have hNow : w.now ≤ w.now + dt := Int.le_add_of_nonneg_right (Int.natCast_nonneg dt)
    exact ⟨hNow, rfl, fun t ht => ht.later hNow rfl⟩
  | request j =>
    cases h
    exact ⟨le_refl _, rfl, fun _ ht => ht⟩
  | putUser u =>
    cases h
    exact ⟨le_refl _, rfl, fun t ht => ht.later (le_refl _) rfl⟩

section

variable {α β : Type} {Q : Except Exn α → World → Prop}

theorem wp_ask {o : Op} {f : o.Res → Coro α} (hErr : ∀ e v, Q (.error e) v)
    (h : ∀ w₁, Rely O pid w w₁ → Req O job w₁ o ∧
      ∀ d a, (perform w₁ pid o d).result = .ok a →
        wp (auth O) (contract O) pid job (f a) Q (perform w₁ pid o d).shared) :
    wp (auth O) (contract O) pid job (ask o >>= f) Q w := by
  intro w₁ fresh _ hRely _
  obtain ⟨hReq, hNext⟩ := h w₁ hRely
  refine ⟨hReq, fun d out hExec => ?_⟩
  obtain ⟨-, ⟨-, rfl⟩ | ⟨hFault, -⟩⟩ := exec_cases job fresh hExec
  · cases hRes : (perform w₁ pid o d).result with
    | ok a =>
      change wp (auth O) (contract O) pid job (Prog.bind (.done (.ok a)) f) Q _
      exact hNext d a hRes
    | error e => exact hErr e _
  · rw [hFault]
    exact hErr _ _

theorem wp_decodeToken {Q : Except Exn Claims → World → Prop} (hFault : ∀ v, Q (.error .fault) v)
    (hDead : ∀ code status message v, Dead O token v → Q (.error (.auth code status message [])) v)
    (hOk : ∀ c v, O.verify token = some c → c.type = refreshType → Q (.ok c) v) :
    wp (auth O) (contract O) pid job (decodeToken O token refreshType) Q w := by
  intro w₁ fresh _ _ _
  refine ⟨trivial, fun d out hExec => ?_⟩
  obtain ⟨-, ⟨-, rfl⟩ | ⟨hRes, -⟩⟩ := exec_cases job fresh hExec
  case inr =>
    rw [hRes]
    exact hFault _
  change wp (auth O) (contract O) pid job (Prog.bind (.done (.ok w₁.now)) _) Q w₁
  simp only [Prog.bind]
  cases hVerify : O.verify token with
  | none =>
    refine hDead _ _ _ _ fun c hc => ?_
    rw [hVerify] at hc
    cases hc
  | some c =>
    dsimp only
    split
    next hExp =>
      refine hDead _ _ _ _ fun c' hc' _ => ?_
      rw [hVerify] at hc'
      cases hc'
      exact .inl hExp
    split
    next hType =>
      refine hDead _ _ _ _ fun c' hc' hType' => ?_
      rw [hVerify] at hc'
      cases hc'
      exact absurd hType' hType
    next hType => exact hOk c w₁ hVerify (not_not.mp hType)

theorem ttl_covers {exp t now : Int} (h : t ≤ now) :
    micros exp ≤ now + micros (max 1 (max 1 (exp - seconds t))) := by
  have hFloor : t / 1000000 * 1000000 ≤ t := Int.ediv_mul_le t (by decide)
  have hMax : exp - t / 1000000 ≤ max 1 (max 1 (exp - t / 1000000)) := by omega
  have hScaled : (exp - t / 1000000) * 1000000 ≤ max 1 (max 1 (exp - t / 1000000)) * 1000000 :=
    Int.mul_le_mul_of_nonneg_right hMax (by decide)
  have hInt : exp * 1000000 ≤ now + max 1 (max 1 (exp - t / 1000000)) * 1000000 := by
    rw [Int.sub_mul] at hScaled
    omega
  exact hInt

theorem dead_after {c : Claims} {ttl : Int} (hc : O.verify token = some c)
    (hTtl : micros c.exp ≤ w.now + micros ttl) :
    Dead O token { w with
      revoked := Function.update w.revoked (revokedKey c.jti) (some (w.now + micros ttl)) } := by
  intro c' hc' _
  rw [hc] at hc'
  cases hc'
  exact .inr ⟨_, Function.update_self _ _ _, hTtl⟩

theorem wp_revokeJti {c : Claims} {Q : Except Exn Unit → World → Prop}
    (hErr : ∀ e v, Q (.error e) v) (hc : O.verify job.token = some c)
    (h : ∀ v, v.passed pid = w.passed pid → Dead O job.token v → Q (.ok ()) v) :
    wp (auth O) (contract O) pid job (revokeJti c) Q w := by
  refine wp_ask hErr fun w₁ hRely => ⟨trivial, fun d now hNow => ?_⟩
  cases hNow
  refine wp_perform fun w₂ fresh _ hRely' _ => ?_
  have hTtl : micros c.exp ≤ w₂.now + _ := ttl_covers hRely'.now
  refine ⟨⟨c, hc, rfl, hTtl⟩, fun d out hExec => ?_⟩
  obtain ⟨-, ⟨-, rfl⟩ | ⟨hFault, -⟩⟩ := exec_cases job fresh hExec
  · exact h _ (hRely'.passed.trans hRely.passed) (dead_after hc hTtl)
  · rw [hFault]
    exact hErr _ _

theorem wp_buildPair {user : User} {f : TokenPair → Coro α} (hErr : ∀ e v, Q (.error e) v)
    (h : ∀ p v, Rely O pid w v → wp (auth O) (contract O) pid job (f p) Q v) :
    wp (auth O) (contract O) pid job (buildPair O user >>= f) Q w := by
  refine wp_bind (wp_ask (fun e v => hErr e v) fun w₁ h₁ => ⟨trivial, fun _ _ _ => ?_⟩)
  refine wp_ask (fun e v => hErr e v) fun w₂ h₂ => ⟨trivial, fun _ _ _ => ?_⟩
  refine wp_ask (fun e v => hErr e v) fun w₃ h₃ => ⟨trivial, fun _ _ _ => ?_⟩
  refine wp_ask (fun e v => hErr e v) fun w₄ h₄ => ⟨trivial, fun _ _ _ => ?_⟩
  exact h _ _ (h₁.trans (h₂.trans (h₃.trans h₄)))

end

theorem wp_refresh : wp (auth O) (contract O) pid (.refresh token) (jobBody O (.refresh token))
    ((contract O).post pid (.refresh token)) w := by
  have hErr : ∀ e v, (contract O).post pid (.refresh token) (.error e) v := fun e v a ha => by cases ha
  refine wp_bind (wp_bind (wp_decodeToken (fun v => hErr _ v) (fun _ _ _ v _ => hErr _ v) ?_))
  intro c w₁ hc hType
  refine wp_ask (fun e v => hErr e v) fun w₂ _ => ⟨⟨token, c, rfl, hc, hType, rfl⟩, fun d revoked hRes => ?_⟩
  cases hRes
  cases hHolds : w₂.holds (revokedKey c.jti) with
  | true => exact hErr _ _
  | false =>
    have hPassed : (perform w₂ pid (.exists' (revokedKey c.jti)) d).shared.passed pid = true := by
      simp [perform, hHolds]
    cases O.parseInt c.sub with
    | none => exact hErr _ _
    | some userId =>
      refine wp_ask (fun e v => hErr e v) fun w₃ h₃ => ⟨trivial, fun _ row _ => ?_⟩
      cases row with
      | none => exact hErr _ _
      | some user =>
        dsimp only
        split
        · exact hErr _ _
        refine wp_bind (wp_revokeJti (fun e v => hErr e v) hc fun w₄ h₄ hDead => ?_)
        refine wp_buildPair (fun e v => hErr e v) fun pair w₅ h₅ => ?_
        intro _ _
        refine ⟨h₅.dead _ hDead, fun _ => ?_⟩
        exact h₅.passed.trans (h₄.trans (h₃.passed.trans hPassed))

theorem wp_logout : wp (auth O) (contract O) pid (.logout token) (jobBody O (.logout token))
    ((contract O).post pid (.logout token)) w := by
  have hErr : ∀ e v, (contract O).post pid (.logout token) (.error e) v := fun e v a ha => by cases ha
  have hOk : ∀ a v, Dead O token v → (contract O).post pid (.logout token) (.ok a) v := by
    rintro a v hDead _ -
    exact ⟨hDead, fun ⟨_, h⟩ => by cases h⟩
  refine wp_bind (wp_bind (wp_handle (wp_bind (wp_decodeToken ?_ ?_ ?_))))
  · exact fun v => hErr _ v
  · exact fun _ _ _ v hDead => hOk _ v hDead
  · intro c v hc _
    exact wp_revokeJti (fun e v => hErr e v) hc fun u _ hDead => hOk _ u hDead

theorem wp_body (job : Job) : wp (auth O) (contract O) pid job ((auth O).body job)
    ((contract O).post pid job) w := by
  cases job with
  | refresh token => exact wp_refresh
  | logout token => exact wp_logout

theorem sound (O : Outside) : Sound (auth O) (contract O) where
  rely_trans _ _ _ _ h h' := Rely.trans h h'
  rely_refl := Rely.refl
  post_rely pid job r w v h hRely := by
    intro a ha
    obtain ⟨hDead, hPassed⟩ := h a ha
    exact ⟨hRely.dead _ hDead, fun hJob => hRely.passed.trans (hPassed hJob)⟩
  exec w job pid n o d out hInv hReq hPid hExec := by
    obtain ⟨hNow, hPassed, hDead⟩ := exec_effect n hExec hReq
    have hNone := (exec_cases job n hExec).1
    refine ⟨?_, fun q _ hq => ⟨hNow, hPassed q hq, hDead⟩, fun t _ => wp_body t⟩
    intro q hq
    rw [hNone] at hq
    have hLe : n ≤ q := hq
    rw [hPassed q (by omega)]
    exact hInv q hLe
  env w n e out hInv hEnv := by
    obtain ⟨hNow, hPassed, hDead⟩ := env_effect (O := O) n hEnv
    refine ⟨fun q hq => ?_, fun q _ => ⟨hNow, congrFun hPassed q, hDead⟩, fun t _ => wp_body t⟩
    rw [hPassed]
    exact hInv q (by omega)

theorem kept_of_reach {users : List User} {C : SysState → SysLabel → Prop} {S : SysState}
    (h : (auth O).Reach C (initial users) S) : Kept (auth O) (contract O) S :=
  (sound O).kept ⟨fun _ _ => rfl, fun _ _ hp => by cases hp⟩ h

end

/-- Another refresh with this token has looked and has not ended. -/
def overlaps (S : SysState) (pid : Nat) (token : String) : Bool :=
  (List.range S.procs.length).any fun q => q ≠ pid && S.shared.passed q &&
    match S.procs[q]? with
    | some ⟨.refresh t, .call _ _⟩ => t = token
    | _ => false

/-- A refresh looks up the revocation while no other refresh with its token is between
looking and its end, and before the token has expired. -/
def checkedAlone (O : Outside) (S : SysState) : SysLabel → Bool
  | .op pid d =>
    match S.procs[pid]? with
    | some ⟨.refresh token, .call (.exists' _) _⟩ => d.fault ≠ .none ||
      (!overlaps S pid token && (O.verify token).all fun c => S.shared.now < micros c.exp)
    | _ => true
  | .env _ => true

/-- Of two refresh calls that have passed with one token, one has failed. -/
def OnePass (S : SysState) : Prop :=
  ∀ p q token a b, p ≠ q → S.procs[p]? = some ⟨.refresh token, a⟩ →
    S.procs[q]? = some ⟨.refresh token, b⟩ → S.shared.passed p = true → S.shared.passed q = true →
      (∃ e, a = .done (.error e)) ∨ ∃ e, b = .done (.error e)

section

variable {O : Outside} {S S' : SysState} {pid : Nat} {t : Job} {o : Op}
  {k : Except Exn o.Res → Coro Ret} {d : Decision} {out : Answer o} {token : String}

theorem new_pass (t : Job) (hExec : exec S.shared t pid S.procs.length o d = some out)
    (hOld : S.shared.passed pid = false) (hNew : out.shared.passed pid = true) :
    d.fault = .none ∧ ∃ key, o = .exists' key ∧ S.shared.holds key = false := by
  obtain ⟨-, ⟨hNone, rfl⟩ | ⟨-, hEq | hEq⟩⟩ := exec_cases t _ hExec
  · refine ⟨hNone, ?_⟩
    cases o with
    | exists' key =>
      refine ⟨key, rfl, ?_⟩
      simpa [perform, hOld] using hNew
    | _ =>
      rw [show (perform S.shared pid _ d).shared.passed pid = S.shared.passed pid from rfl, hOld] at hNew
      cases hNew
  · rw [hEq, hOld] at hNew
    cases hNew
  · rw [hEq] at hNew
    change S.shared.passed pid = true at hNew
    rw [hOld] at hNew
    cases hNew

theorem dead_holds {c : Claims} {w : World} (h : Dead O token w) (hc : O.verify token = some c)
    (hType : c.type = refreshType) (hExp : w.now < micros c.exp) :
    w.holds (revokedKey c.jti) = true := by
  obtain hGone | ⟨e, he, hLe⟩ := h c hc hType
  · exact absurd hExp (not_lt.mpr hGone)
  · simp only [World.holds, he, Option.any_some, decide_eq_true_eq]
    exact lt_of_lt_of_le hExp hLe

theorem checkedAlone_spec (hCond : checkedAlone O S (.op pid d) = true)
    {key : String} {k : Except Exn Bool → Coro Ret}
    (hProc : S.procs[pid]? = some ⟨.refresh token, .call (.exists' key) k⟩) (hNone : d.fault = .none) :
    overlaps S pid token = false ∧ ∀ c, O.verify token = some c → S.shared.now < micros c.exp := by
  simp only [checkedAlone, hProc, hNone] at hCond
  simp only [ne_eq, not_true_eq_false, decide_false, Bool.false_or, Bool.and_eq_true,
    Bool.not_eq_true'] at hCond
  refine ⟨hCond.1, fun c hc => ?_⟩
  rw [hc] at hCond
  exact of_decide_eq_true hCond.2

theorem overlaps_spec (h : overlaps S pid token = false) {q : Nat} {a : Coro Ret} (hq : q ≠ pid)
    (hProc : S.procs[q]? = some ⟨.refresh token, a⟩) (hPassed : S.shared.passed q = true) :
    ∃ r, a = .done r := by
  have hLt : q < S.procs.length := (List.getElem?_eq_some_iff.mp hProc).1
  have hOne := List.any_eq_false.mp h q (List.mem_range.mpr hLt)
  cases a with
  | done r => exact ⟨r, rfl⟩
  | call o k => simp [hq, hPassed, hProc] at hOne

theorem onePass_op (hKept : Kept (auth O) (contract O) S) (h : OnePass S)
    (hCond : checkedAlone O S (.op pid d) = true) (hProc : S.procs[pid]? = some ⟨t, .call o k⟩)
    (hExec : exec S.shared t pid S.procs.length o d = some out) :
    OnePass ⟨out.shared, S.procs.set pid ⟨t, k out.result⟩⟩ := by
  have hLt : pid < S.procs.length := (List.getElem?_eq_some_iff.mp hProc).1
  have hReq : Req O t S.shared o := hKept.req (sound O) hProc
  have hPassed := (exec_effect S.procs.length hExec hReq).2.1
  have hOther : ∀ q a, q ≠ pid → (S.procs.set pid ⟨t, k out.result⟩)[q]? = some a →
      S.procs[q]? = some a := by
    intro q a hq ha
    rwa [List.getElem?_set_ne (Ne.symm hq)] at ha
  have hMove : ∀ token b q, q ≠ pid → t = .refresh token → S.procs[q]? = some ⟨.refresh token, b⟩ →
      S.shared.passed q = true → out.shared.passed pid = true → ∃ e, b = .done (.error e) := by
    intro token b q hq ht hb hPassedQ hPassedPid
    subst ht
    cases hOld : S.shared.passed pid with
    | true =>
      obtain ⟨e, he⟩ | hErr := h pid q token _ b (Ne.symm hq) hProc hb hOld hPassedQ
      · cases he
      · exact hErr
    | false =>
      obtain ⟨hNone, key, rfl, hHolds⟩ := new_pass _ hExec hOld hPassedPid
      obtain ⟨hAlone, hTime⟩ := checkedAlone_spec hCond hProc hNone
      obtain ⟨r, rfl⟩ := overlaps_spec hAlone hq hb hPassedQ
      cases r with
      | error e => exact ⟨e, rfl⟩
      | ok a =>
        obtain ⟨token', c, hToken, hc, hType, rfl⟩ := hReq
        cases hToken
        have hDead := (hKept.post hb a rfl).1
        rw [dead_holds hDead hc hType (hTime c hc)] at hHolds
        cases hHolds
  intro p q token a b hpq hp hq hPassedP hPassedQ
  by_cases hpPid : p = pid
  · subst hpPid
    rw [List.getElem?_set_self hLt] at hp
    cases hp
    rw [hPassed q (Ne.symm hpq)] at hPassedQ
    exact .inr (hMove token b q (Ne.symm hpq) rfl (hOther q _ (Ne.symm hpq) hq) hPassedQ hPassedP)
  · rw [hPassed p hpPid] at hPassedP
    by_cases hqPid : q = pid
    · subst hqPid
      rw [List.getElem?_set_self hLt] at hq
      cases hq
      exact .inl (hMove token a p hpq rfl (hOther p _ hpq hp) hPassedP hPassedQ)
    · rw [hPassed q hqPid] at hPassedQ
      exact h p q token a b hpq (hOther p _ hpPid hp) (hOther q _ hqPid hq) hPassedP hPassedQ

theorem onePass_reach {users : List User}
    (h : (auth O).Reach (fun S l => checkedAlone O S l = true) (initial users) S) : OnePass S := by
  induction h with
  | refl =>
    intro p q token a b _ hp
    cases hp
  | @tail S₁ S₂ l hReach hCond hStep ih =>
    have hKept := kept_of_reach hReach
    obtain ⟨pid, d, t, o, k, out, rfl, hProc, hExec, rfl⟩ | ⟨e, out, rfl, hEnv, rfl⟩ :=
      Machine.step_cases hStep
    · rw [(exec_cases t S₁.procs.length hExec).1]
      simp only [Option.toList_none, List.map_nil, List.append_nil]
      exact onePass_op hKept ih hCond hProc hExec
    · intro p q token a b hpq hp hq hPassedP hPassedQ
      have hPassed := (env_effect (O := O) S₁.procs.length hEnv).2.1
      have hOld : ∀ p a, (S₁.procs ++ out.2.toList.map (auth O).start)[p]? = some a →
          out.1.passed p = true → S₁.procs[p]? = some a := by
        intro p a hp hPassedP
        obtain hOld | ⟨rfl, -⟩ := getElem?_append_spawned hp
        · exact hOld
        · rw [hPassed, hKept.inv _ (le_refl _)] at hPassedP
          cases hPassedP
      have hp' := hOld p _ hp hPassedP
      have hq' := hOld q _ hq hPassedQ
      rw [hPassed] at hPassedP hPassedQ
      exact ih p q token a b hpq hp' hq' hPassedP hPassedQ

theorem dead_reach {users : List User} {S₀ : SysState}
    (h₀ : (auth O).Reach (fun S l => checkedAlone O S l = true) (initial users) S₀)
    (hDead : Dead O token S₀.shared)
    (h : (auth O).Reach (fun S l => checkedAlone O S l = true) S₀ S) :
    Dead O token S.shared ∧ S₀.procs.length ≤ S.procs.length ∧
      ∀ p a, S₀.procs.length ≤ p → S.procs[p]? = some ⟨.refresh token, a⟩ →
        S.shared.passed p = false := by
  induction h with
  | refl =>
    refine ⟨hDead, le_refl _, fun p a hp hProc => ?_⟩
    exact (kept_of_reach h₀).inv p hp
  | @tail S₁ S₂ l hReach hCond hStep ih =>
    obtain ⟨hDead, hLen, ih⟩ := ih
    have hKept := kept_of_reach (h₀.trans hReach)
    obtain ⟨pid, d, t, o, k, out, rfl, hProc, hExec, rfl⟩ | ⟨e, out, rfl, hEnv, rfl⟩ :=
      Machine.step_cases hStep
    · have hReq : Req O t S₁.shared o := hKept.req (sound O) hProc
      obtain ⟨-, hPassed, hStay⟩ := exec_effect S₁.procs.length hExec hReq
      rw [(exec_cases t S₁.procs.length hExec).1]
      simp only [Option.toList_none, List.map_nil, List.append_nil, List.length_set]
      refine ⟨hStay token hDead, hLen, fun p a hp hProc' => ?_⟩
      by_cases hpPid : p = pid
      · subst hpPid
        rw [List.getElem?_set_self (List.getElem?_eq_some_iff.mp hProc).1] at hProc'
        cases hProc'
        have hOld := ih p _ hp hProc
        by_contra hNew
        obtain ⟨hNone, key, rfl, hHolds⟩ := new_pass (.refresh token) hExec hOld (by simpa using hNew)
        obtain ⟨-, hTime⟩ := checkedAlone_spec hCond hProc hNone
        obtain ⟨token', c, hToken, hc, hType, rfl⟩ := hReq
        cases hToken
        rw [dead_holds hDead hc hType (hTime c hc)] at hHolds
        cases hHolds
      · rw [List.getElem?_set_ne (Ne.symm hpPid)] at hProc'
        rw [hPassed p hpPid]
        exact ih p a hp hProc'
    · obtain ⟨-, hPassed, hStay⟩ := env_effect (O := O) S₁.procs.length hEnv
      refine ⟨hStay token hDead, ?_, fun p a hp hProc' => ?_⟩
      · simp only [List.length_append]
        omega
      · rw [hPassed]
        obtain hOld | ⟨rfl, -⟩ := getElem?_append_spawned hProc'
        · exact ih p a hp hOld
        · exact hKept.inv _ (le_refl _)

end

/-- At most one refresh with a token returns a pair, and none that starts after a logout with
the token has returned. -/
theorem refresh_single_use {O : Outside} {users : List User} {S : SysState}
    (h : (auth O).Reach (fun S l => checkedAlone O S l = true) (initial users) S) :
    (∀ (p q : Nat) (token : String) (a b : Ret),
      S.procs[p]? = some ⟨.refresh token, .done (.ok a)⟩ →
      S.procs[q]? = some ⟨.refresh token, .done (.ok b)⟩ → p = q) ∧
    ∀ S₀ : SysState, (auth O).Reach (fun S l => checkedAlone O S l = true) (initial users) S₀ →
      (auth O).Reach (fun S l => checkedAlone O S l = true) S₀ S →
      ∀ (token : String) (q : Nat) (r : Ret), S₀.procs[q]? = some ⟨.logout token, .done (.ok r)⟩ →
      ∀ (p : Nat) (a : Ret), S₀.procs.length ≤ p →
        S.procs[p]? ≠ some ⟨.refresh token, .done (.ok a)⟩ := by
  have hKept := kept_of_reach h
  constructor
  · intro p q token a b hp hq
    by_contra hpq
    have hPassedP := (hKept.post hp a rfl).2 ⟨token, rfl⟩
    have hPassedQ := (hKept.post hq b rfl).2 ⟨token, rfl⟩
    obtain ⟨e, he⟩ | ⟨e, he⟩ := onePass_reach h p q token _ _ hpq hp hq hPassedP hPassedQ
    · cases he
    · cases he
  · intro S₀ h₀ hLater token q r hq p a hp hProc
    have hDead := ((kept_of_reach h₀).post hq r rfl).1
    obtain ⟨-, -, hNone⟩ := dead_reach h₀ hDead hLater
    have hPassed := (hKept.post hProc a rfl).2 ⟨token, rfl⟩
    rw [hNone p _ hp hProc] at hPassed
    cases hPassed

namespace Demo

def claims : Claims := ⟨"7", "41", "refresh", 604800⟩

def outside : Outside where
  verify token := if token = "r1" then some claims else none
  jti_once := by
    intro a b ca cb ha hb _
    split at ha <;> split at hb <;> cases ha <;> cases hb
    rfl
  parseInt s := if s = "7" then some 7 else none
  signAccess sub _ jti _ := toString sub ++ ":" ++ toString jti
  signRefresh sub jti _ := toString sub ++ "/" ++ toString jti
  accessTtlMin := 15

def users : List User := [⟨7, .player, true⟩]

def calls (pid k : Nat) : List SysLabel := List.replicate k (.op pid {})

def request (job : Job) : SysLabel := .env (.request job)

def inTurn : List SysLabel :=
  [request (.refresh "r1")] ++ calls 0 9 ++ [request (.refresh "r1")] ++ calls 1 2

def loggedOut : List SysLabel := [request (.logout "r1")] ++ calls 0 3

def refreshed : List SysLabel := [request (.refresh "r1")] ++ calls 1 2

def together : List SysLabel :=
  [request (.refresh "r1"), request (.refresh "r1")] ++ calls 0 2 ++ calls 1 9 ++ calls 0 7

end Demo

def returned (S : SysState) (pid : Nat) : Option (Job × Bool) :=
  match S.procs[pid]? with
  | some ⟨t, .done (.ok _)⟩ => some (t, true)
  | some ⟨t, .done (.error _)⟩ => some (t, false)
  | _ => none

theorem returned_ok {S : SysState} {pid : Nat} {t : Job} (h : returned S pid = some (t, true)) :
    ∃ a, S.procs[pid]? = some ⟨t, .done (.ok a)⟩ := by
  unfold returned at h
  split at h
  next a hProc =>
    cases h
    exact ⟨a, hProc⟩
  · cases h
  · cases h

/-- The second of two refreshes is refused, and so is one after a logout. -/
theorem refresh_single_use_in_turn :
    (∃ S : SysState, (auth Demo.outside).Reach (fun S l => checkedAlone Demo.outside S l = true)
        (initial Demo.users) S ∧
      (List.range 2).map (returned S) = [some (.refresh "r1", true), some (.refresh "r1", false)] ∧
      ∀ (p q : Nat) (token : String) (a b : Ret),
        S.procs[p]? = some ⟨.refresh token, .done (.ok a)⟩ →
        S.procs[q]? = some ⟨.refresh token, .done (.ok b)⟩ → p = q) ∧
    ∃ S₀ S : SysState, (auth Demo.outside).Reach (fun S l => checkedAlone Demo.outside S l = true)
        (initial Demo.users) S₀ ∧
      (auth Demo.outside).Reach (fun S l => checkedAlone Demo.outside S l = true) S₀ S ∧
      S₀.procs.length = 1 ∧
      (List.range 2).map (returned S) = [some (.logout "r1", true), some (.refresh "r1", false)] ∧
      ∀ (p : Nat) (a : Ret), 1 ≤ p → S.procs[p]? ≠ some ⟨.refresh "r1", .done (.ok a)⟩ := by
  constructor
  · have hRun : ((auth Demo.outside).runWhile (checkedAlone Demo.outside) (initial Demo.users)
        Demo.inTurn).any (fun S => (List.range 2).map (returned S) =
          [some (.refresh "r1", true), some (.refresh "r1", false)]) = true := by
      decide +kernel
    obtain ⟨S, hReach, hS⟩ := Machine.Reach.exists_of_runWhile hRun
    exact ⟨S, hReach, of_decide_eq_true hS, (refresh_single_use hReach).1⟩
  · have hRun : ((auth Demo.outside).runWhile (checkedAlone Demo.outside) (initial Demo.users)
        Demo.loggedOut).any (fun S₀ => (S₀.procs.length = 1 ∧ returned S₀ 0 = some (.logout "r1", true)) ∧
          ((auth Demo.outside).runWhile (checkedAlone Demo.outside) S₀ Demo.refreshed).any fun S =>
            (List.range 2).map (returned S) = [some (.logout "r1", true), some (.refresh "r1", false)]) =
        true := by
      decide +kernel
    obtain ⟨S₀, hReach, hS₀⟩ := Machine.Reach.exists_of_runWhile hRun
    obtain ⟨⟨hOne, hOut⟩, hRun'⟩ := of_decide_eq_true hS₀
    obtain ⟨S, hReach', hS⟩ := Machine.Reach.exists_of_runWhile hRun'
    obtain ⟨r, hProc⟩ := returned_ok hOut
    refine ⟨S₀, S, hReach, hReach', hOne, of_decide_eq_true hS, fun p a hp => ?_⟩
    exact (refresh_single_use (hReach.trans hReach')).2 S₀ hReach hReach' "r1" 0 r hProc p a (hOne ▸ hp)

/-- One token, two pairs. -/
theorem token_used_twice : ∃ (S : SysState) (a b : Ret),
    (auth Demo.outside).Reach (fun _ _ => True) (initial Demo.users) S ∧
    S.procs[0]? = some ⟨.refresh "r1", .done (.ok a)⟩ ∧
    S.procs[1]? = some ⟨.refresh "r1", .done (.ok b)⟩ := by
  have hRun : ((auth Demo.outside).run (initial Demo.users) Demo.together).any (fun S =>
      returned S 0 = some (.refresh "r1", true) ∧ returned S 1 = some (.refresh "r1", true)) = true := by
    decide +kernel
  obtain ⟨S, hReach, hS⟩ := Machine.Reach.exists_of_run hRun
  obtain ⟨h₀, h₁⟩ := of_decide_eq_true hS
  obtain ⟨a, ha⟩ := returned_ok h₀
  obtain ⟨b, hb⟩ := returned_ok h₁
  exact ⟨S, a, b, hReach, ha, hb⟩

end LiveQuiz.Auth
