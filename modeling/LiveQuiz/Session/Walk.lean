import LiveQuiz.Session.Steps

/-! # Walking the programs of a session

A walk goes through a program from one of its moments to its end. Where the program has
sent a request it waits for the response, and everywhere else its own answer and outcome
are still to come.
-/

namespace LiveQuiz.Session

open Coroutine

set_option autoImplicit false

/-- A moment of a program at which it waits for nothing. -/
structure Here (pid : Nat) (job : Job) (w : World) : Prop where
  at' : At pid job w
  idle : w.awaiting pid = none

def Ends {α : Type} (pid : Nat) (job : Job) (Q : α → World → Prop) (X : Exn → World → Prop) :
    Except Exn α → World → Prop
  | .ok a, w => Here pid job w ∧ Q a w
  | .error e, w => Here pid job w ∧ X e w

def Walk {α : Type} (O : Outside) (pid : Nat) (job : Job) (P : World → Prop) (p : Coro α)
    (Q : α → World → Prop) (X : Exn → World → Prop) : Prop :=
  ∀ w, Here pid job w → P w → wp (session O) (contract O.toOutside) pid job p (Ends pid job Q X) w

def Stable (O : Outside) (pid : Nat) (P : World → Prop) : Prop :=
  ∀ w v, Rely O.toOutside pid w v → P w → P v

/-- A call that only this program and the tab's store notice. -/
def Op.plain : Op → Bool
  | .bffPost _ | .send _ | .upstream _ | .response _ | .reply _ | .finishRefresh _ => false
  | _ => true

def World.TraceIs (pid : Nat) (tr : List Step) (w : World) : Prop := w.trace pid = tr

/-- The answer to a request has arrived: what holds of answers holds of it, and a pair of
tokens from the API is issued. -/
def World.Delivers (w : World) (req : Request) (r : Response) : Prop :=
  w.Answers req r ∧ ∀ u, req = .upstream u → r.ok = true → w.Grants r.text

section

variable {O : Outside} {pid n : Nat} {job : Job} {w v : World} {α β : Type}
  {P P' : World → Prop} {Q : α → World → Prop} {X X' : Exn → World → Prop}

theorem Here.rely (h : Here pid job w) (hRely : Rely O.toOutside pid w v) : Here pid job v :=
  ⟨h.at'.rely hRely, hRely.waits.trans h.idle⟩

theorem stable_true : Stable O pid fun _ => True := fun _ _ _ => id

theorem stable_trace (tr : List Step) : Stable O pid (World.TraceIs pid tr) :=
  fun _ _ hRely h => hRely.steps.trans h

theorem Stable.and (h : Stable O pid P) (h' : Stable O pid P') : Stable O pid fun w => P w ∧ P' w :=
  fun w v hRely hw => ⟨h w v hRely hw.1, h' w v hRely hw.2⟩

theorem stable_grants (t : Text) : Stable O pid fun w => w.Grants t := fun _ _ hRely h => h.rely hRely

theorem stable_delivers (req : Request) (r : Response) : Stable O pid fun w => w.Delivers req r :=
  fun _ _ hRely h => ⟨h.1.mono hRely.asked hRely.responses, fun u hReq hOk => (h.2 u hReq hOk).rely hRely⟩

theorem Here.exec {o : Op} {d : Decision} {out : Answer o} (h : Here pid job w) (hLt : pid < n)
    (ho : o.plain = true) (hExec : exec w job pid n o d = some out) : Here pid job out.shared := by
  obtain ⟨hAt, hIdle⟩ := h
  have hSame : ∀ v, v.refreshInFlight = w.refreshInFlight → v.settled = w.settled →
      v.responses = w.responses → v.asked = w.asked → v.awaiting = w.awaiting → Here pid job v := by
    intro v hFlight hSettled hResponses hAsked hAwaiting
    refine ⟨⟨?_, ?_, ?_, ?_⟩, ?_⟩
    · rw [hFlight]
      exact hAt.flight
    · rw [hSettled]
      exact hAt.unsettled
    · rw [hResponses]
      exact hAt.unanswered
    · rw [hAsked]
      exact hAt.asked
    · rw [hAwaiting]
      exact hIdle
  cases o with
  | bffPost _ => cases ho
  | send _ => cases ho
  | upstream _ => cases ho
  | response _ => cases ho
  | reply _ => cases ho
  | finishRefresh _ => cases ho
  | refreshAccess =>
    simp only [Session.exec] at hExec
    split at hExec <;> cases hExec
    · exact ⟨hAt, hIdle⟩
    next hNone =>
      refine ⟨⟨?_, hAt.unsettled, hAt.unanswered, hAt.asked⟩, hIdle⟩
      constructor
      · intro hFlight
        cases hFlight
        omega
      · intro hJob
        have hFlight := hAt.flight.mpr hJob
        rw [hNone] at hFlight
        cases hFlight
  | flight k =>
    obtain ⟨ok, -, rfl⟩ := Option.map_eq_some_iff.mp hExec
    exact hSame _ rfl rfl rfl rfl rfl
  | auth o =>
    obtain ⟨out', -, rfl⟩ := Option.map_eq_some_iff.mp hExec
    exact hSame _ rfl rfl rfl rfl rfl
  | text r =>
    simp only [Session.exec] at hExec
    split at hExec <;> cases hExec <;> exact ⟨hAt, hIdle⟩
  | beginHydrate =>
    simp only [Session.exec] at hExec
    split at hExec <;> cases hExec <;> exact hSame _ rfl rfl rfl rfl rfl
  | rateAcquire =>
    simp only [Session.exec] at hExec
    split at hExec <;> cases hExec <;> exact ⟨hAt, hIdle⟩
  | getByEmail email =>
    simp only [Session.exec] at hExec
    split at hExec <;> cases hExec <;> exact ⟨hAt, hIdle⟩
  | isAccessRevoked key =>
    simp only [Session.exec] at hExec
    split at hExec <;> cases hExec <;> exact ⟨hAt, hIdle⟩
  | setAnon => cases hExec; exact hSame _ rfl rfl rfl rfl rfl
  | setStatusAnon => cases hExec; exact hSame _ rfl rfl rfl rfl rfl
  | setToken a => cases hExec; exact hSame _ rfl rfl rfl rfl rfl
  | setUser user => cases hExec; exact hSame _ rfl rfl rfl rfl rfl
  | endpoint opts authorization => cases hExec; exact ⟨hAt, hIdle⟩

namespace Walk

theorem pure {a : α} (h : ∀ w, P w → Q a w) : Walk O pid job P (Pure.pure a) Q X :=
  fun w hHere hw => ⟨hHere, h w hw⟩

theorem raise {e : Exn} (h : ∀ w, P w → X e w) : Walk O pid job P (throw e : Coro α) Q X :=
  fun w hHere hw => ⟨hHere, h w hw⟩

theorem weaken {p : Coro α} {Q' : α → World → Prop} (h : Walk O pid job P p Q X)
    (hP : ∀ w, P' w → P w) (hQ : ∀ a w, Q a w → Q' a w) (hX : ∀ e w, X e w → X' e w) :
    Walk O pid job P' p Q' X' := by
  intro w hHere hw
  refine wp_mono (h w hHere (hP w hw)) fun r v hr => ?_
  cases r with
  | ok a => exact ⟨hr.1, hQ a v hr.2⟩
  | error e => exact ⟨hr.1, hX e v hr.2⟩

theorem bind {p : Coro α} {f : α → Coro β} {U : β → World → Prop} (hp : Walk O pid job P p Q X)
    (hf : ∀ a, Walk O pid job (Q a) (f a) U X) : Walk O pid job P (p >>= f) U X := by
  intro w hHere hw
  refine wp_bind (wp_mono (hp w hHere hw) fun r v hr => ?_)
  cases r with
  | ok a => exact hf a v hr.1 hr.2
  | error e => exact hr

theorem map {p : Coro α} {f : α → β} {U : β → World → Prop} (hp : Walk O pid job P p Q X)
    (h : ∀ a w, Q a w → U (f a) w) : Walk O pid job P (f <$> p) U X :=
  bind hp fun a => pure fun w hw => h a w hw

theorem handle {p : Coro α} {h : Exn → Coro α} (hp : Walk O pid job P p Q X')
    (hh : ∀ e, Walk O pid job (X' e) (h e) Q X) : Walk O pid job P (p.handle h) Q X := by
  intro w hHere hw
  refine wp_handle (wp_mono (hp w hHere hw) fun r v hr => ?_)
  cases r with
  | ok a => exact hr
  | error e => exact hh e v hr.1 hr.2

theorem call {o : Op} {Q : o.Res → World → Prop} (ho : o.plain = true) (hP : Stable O pid P)
    (hReq : ∀ w, P w → OpReq O.toOutside job w o)
    (h : ∀ n w d out, pid < n → Inv n w → P w → exec w job pid n o d = some out →
      (∀ a, out.result = .ok a → Q a out.shared) ∧ ∀ e, out.result = .error e → X e out.shared) :
    Walk O pid job P (ask o) Q X := by
  intro w hHere hw w₁ n hLt hRely hInv
  have hHere₁ := hHere.rely hRely
  have hw₁ := hP w w₁ hRely hw
  refine ⟨⟨hHere₁.at', fun i hi => ?_, hReq w₁ hw₁⟩, fun d out hOut => ?_⟩
  · rw [hHere₁.idle] at hi
    cases hi
  · obtain ⟨hOk, hError⟩ := h n w₁ d out hLt hInv hw₁ hOut
    have hHere₂ := hHere₁.exec hLt ho hOut
    cases hRes : out.result with
    | ok a => exact ⟨hHere₂, hOk a hRes⟩
    | error e => exact ⟨hHere₂, hError e hRes⟩

theorem any {o : Op} (ho : o.plain = true) (hReq : ∀ w, OpReq O.toOutside job w o) :
    Walk O pid job (fun _ => True) (ask o) (fun _ _ => True) fun _ _ => True :=
  call ho stable_true (fun w _ => hReq w) fun _ _ _ _ _ _ _ _ => ⟨fun _ _ => trivial, fun _ _ => trivial⟩

theorem text {r : Response} (hP : Stable O pid P) :
    Walk O pid job P (ask (.text r)) (fun a w => P w ∧ a = r.text) fun e w => P w ∧ e = .network := by
  refine call rfl hP (fun _ _ => trivial) fun n w d out _ _ hw hExec => ?_
  simp only [exec] at hExec
  split at hExec <;> cases hExec
  · refine ⟨fun a ha => ?_, fun e he => (by cases he)⟩
    cases ha
    exact ⟨hw, rfl⟩
  · refine ⟨fun a ha => (by cases ha), fun e he => ?_⟩
    cases he
    exact ⟨hw, rfl⟩

end Walk

theorem World.Answers.congr {req : Request} {r a : Response} (h : w.Answers req a)
    (hStatus : a.status = r.status) (hText : a.text = r.text) : w.Answers req r := by
  have hOk : r.ok = a.ok := by rw [Response.ok, Response.ok, hStatus]
  cases req with
  | route _ =>
    obtain ⟨hSecret, hGrants⟩ := h
    exact ⟨hText ▸ hSecret, hText ▸ hGrants⟩
  | upstream _ =>
    intro hRefused
    obtain ⟨hSecret, hToken⟩ := h (hOk ▸ hRefused)
    exact ⟨hText ▸ hSecret, hText ▸ hToken⟩
  | api _ _ => trivial

theorem walk_response (tr : List Step) {i : Nat} {req : Request} (hAt : At pid job w)
    (hWaits : w.awaiting pid = some i) (hAsked : w.asked i = some req)
    (hRank : (Job.handler req).rank < job.rank) (hTrace : w.trace pid = tr) :
    wp (session O) (contract O.toOutside) pid job (ask (.response i))
      (Ends pid job (fun r v => v.trace pid = tr ++ [.got r.status] ∧ v.Delivers req r)
        fun e v => e = .network ∧ v.trace pid = tr) w := by
  intro w₁ n hLt hRely hInv
  have hAt₁ := hAt.rely hRely
  have hTrace₁ : w₁.trace pid = tr := hRely.steps.trans hTrace
  refine ⟨⟨hAt₁, fun j hj => ?_, req, hRely.asked i req hAsked, hRank⟩, fun d out hOut => ?_⟩
  · rw [hRely.waits, hWaits] at hj
    cases hj
    rfl
  · simp only [session, exec] at hOut
    split at hOut
    · obtain ⟨r, hr, rfl⟩ := Option.map_eq_some_iff.mp hOut
      have hAsked₁ := hRely.asked i req hAsked
      refine ⟨⟨⟨hAt₁.flight, hAt₁.unsettled, hAt₁.unanswered, hAt₁.asked⟩, ?_⟩, ?_, ?_, ?_⟩
      · exact Function.update_self _ _ _
      · rw [← hTrace₁]
        exact Function.update_self _ _ _
      · exact ((hInv.answers i req r hAsked₁ hr).mono (fun _ _ => id) fun _ _ => id).congr rfl rfl
      · rintro u rfl hOk token hToken
        exact ⟨i, u, r, hAsked₁, hr, hOk, hToken⟩
    · cases hOut
      refine ⟨⟨⟨hAt₁.flight, hAt₁.unsettled, hAt₁.unanswered, hAt₁.asked⟩, ?_⟩, rfl, hTrace₁⟩
      exact Function.update_self _ _ _

theorem At.dispatch (req : Request) (h : At pid job w) (hLt : pid < n) :
    At pid job (w.dispatch pid n req) :=
  ⟨h.flight, h.unsettled, h.unanswered, fun req' => by
    rw [show (w.dispatch pid n req).asked pid = w.asked pid from Function.update_of_ne (by omega) _ _]
    exact h.asked req'⟩

theorem walk_bffPost {tr : List Step} {p : Post} (hRank : 1 < job.rank) (hReq : p = .refresh → job = .flight) :
    Walk O pid job (World.TraceIs pid tr) (bffPost p)
      (fun r v => v.trace pid = tr ++ [.got r.status] ∧ ∃ route, v.Delivers (.route route) r)
      fun e v => e = .network ∧ v.trace pid = tr := by
  intro w hHere hTrace w₁ n hLt hRely hInv
  have hHere₁ := hHere.rely hRely
  have hTrace₁ : w₁.trace pid = tr := hRely.steps.trans hTrace
  refine ⟨⟨hHere₁.at', fun i hi => ?_, ?_⟩, fun d out hOut => ?_⟩
  · rw [hHere₁.idle] at hi
    cases hi
  · cases p with
    | refresh => exact hReq rfl
    | login _ _ => trivial
    | logout => trivial
  · simp only [session, exec] at hOut
    split at hOut <;> cases hOut
    · refine wp_mono (walk_response tr (hHere₁.at'.dispatch _ hLt) (Function.update_self _ _ _)
        (Function.update_self _ _ _) hRank hTrace₁) fun r v hr => ?_
      cases r with
      | ok r => exact ⟨hr.1, hr.2.1, _, hr.2.2⟩
      | error e => exact hr
    · exact ⟨hHere₁, rfl, hTrace₁⟩

theorem walk_fetch {u : Upstream} (hRank : 0 < job.rank)
    (hReq : ∀ token, u = .refresh token → ∃ cookie, job = .handler (.route (.refresh cookie))) :
    Walk O pid job (fun _ => True) (fetch u) (fun r v => v.Delivers (.upstream u) r)
      fun _ _ => True := by
  intro w hHere _ w₁ n hLt hRely hInv
  have hHere₁ := hHere.rely hRely
  refine ⟨⟨hHere₁.at', fun i hi => ?_, ?_⟩, fun d out hOut => ?_⟩
  · rw [hHere₁.idle] at hi
    cases hi
  · cases u with
    | refresh token => exact hReq token rfl
    | login _ _ => trivial
    | logout _ _ => trivial
  · simp only [session, exec] at hOut
    split at hOut <;> cases hOut
    · refine wp_mono (walk_response _ (hHere₁.at'.dispatch _ hLt) (Function.update_self _ _ _)
        (Function.update_self _ _ _) hRank rfl) fun r v hr => ?_
      cases r with
      | ok r => exact ⟨hr.1, hr.2.2⟩
      | error e => exact ⟨hr.1, trivial⟩
    · exact ⟨hHere₁, trivial⟩

theorem walk_fetchApi {tr : List Step} {opts : RequestOptions} (hRank : 0 < job.rank) :
    Walk O pid job (World.TraceIs pid tr) (fetchApi opts)
      (fun r v => ∃ a, v.trace pid = tr ++ [.sent opts.auth a, .got r.status])
      fun e v => e = .network ∧ (v.trace pid = tr ∨ ∃ a, v.trace pid = tr ++ [.sent opts.auth a]) := by
  intro w hHere hTrace w₁ n hLt hRely hInv
  have hHere₁ := hHere.rely hRely
  have hTrace₁ : w₁.trace pid = tr := hRely.steps.trans hTrace
  refine ⟨⟨hHere₁.at', fun i hi => ?_, trivial⟩, fun d out hOut => ?_⟩
  · rw [hHere₁.idle] at hi
    cases hi
  · simp only [session, exec] at hOut
    split at hOut <;> cases hOut
    · have hAt := hHere₁.at'.dispatch (.api opts (opts.authorization w₁.store.accessToken)) hLt
      refine wp_mono (walk_response (tr ++ [.sent opts.auth (opts.authorization w₁.store.accessToken)])
        ⟨hAt.flight, hAt.unsettled, hAt.unanswered, hAt.asked⟩ (Function.update_self _ _ _)
        (Function.update_self _ _ _) hRank ?_) fun r v hr => ?_
      · rw [← hTrace₁]
        exact Function.update_self _ _ _
      · cases r with
        | ok r => exact ⟨hr.1, _, hr.2.1.trans (List.append_assoc _ _ _)⟩
        | error e => exact ⟨hr.1, hr.2.1, .inr ⟨_, hr.2.2⟩⟩
    · exact ⟨hHere₁, rfl, .inl hTrace₁⟩

end

end LiveQuiz.Session
