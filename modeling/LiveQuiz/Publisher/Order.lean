import LiveQuiz.Publisher.Run
import LiveQuiz.Lib.Layer

/-! # The order of a single publisher

A batch is taken and sent in the order of `occurred_at`, but a row whose send raises a
KafkaError is left for a later batch while the rows behind it are sent. The runs here are
those of one publisher in which this happens to no row with a later one of its aggregate
and topic behind it in the batch.
-/

namespace LiveQuiz.Publisher

open Coroutine

set_option autoImplicit false

def Envelope.precedes (a b : Envelope) : Bool :=
  a.aggregateId = b.aggregateId ∧ topicFor a.eventType = topicFor b.eventType ∧
    a.occurredAt < b.occurredAt

/-- No send of an event to its own topic raises a KafkaError while a later event of its
aggregate and topic is in the same batch. -/
def inOrderOp (w : World) : Op → Decision → Bool
  | .sendAndWait topic e, d =>
    d.fault ≠ .fail .kafka ∨ topic ≠ topicFor e.eventType ∨
      ∀ row ∈ w.table, e.precedes (buildEnvelope row) → w.lock row.id ≠ w.lock e.eventId
  | _, _ => true

/-- Events of one aggregate and topic come with increasing `occurred_at`. One publisher
runs at a time, and starts when the locks of the last one are gone. -/
def inOrderEnv (w : World) : EnvAction → Bool
  | .insert row => ∀ r ∈ w.table, r.aggregateId = row.aggregateId →
    topicFor r.eventType = topicFor row.eventType → r.occurredAt < row.occurredAt
  | .boot r => r = 0 ∧ ∀ row ∈ w.table, w.lock row.id = none
  | _ => true

def single : Machine World Op Op.Res Exn Unit Nat Decision EnvAction :=
  publisher.restrict inOrderOp inOrderEnv

/-- What the broker has acknowledged on a topic, in order. -/
def delivered (w : World) (topic : String) : List Envelope :=
  w.log.filterMap fun
    | (_, .acked t e) => if t = topic then some e else none
    | _ => none

def OutboxRow.Retired (row : OutboxRow) : Prop :=
  row.publishedAt.isSome ∨
    (maxPublishAttempts ≤ row.publishAttempts ∧ topicFor row.eventType ≠ topicDeadLetter)

def Settled (w : World) (row : OutboxRow) : Prop :=
  buildEnvelope row ∈ delivered w (topicFor row.eventType) ∨ row.Retired

structure Ordered (w : World) : Prop where
  lone : ∀ r, r ≠ 0 → w.process r = none
  held : ∀ i q p, w.lock i = some q → w.process 0 = some p → q = p
  locked : ∀ i q, w.lock i = some q → ∃ row ∈ w.table, row.id = i
  known : ∀ topic, ∀ e ∈ delivered w topic, ∃ row ∈ w.table, buildEnvelope row = e
  behind : ∀ row ∈ w.table, ∀ e ∈ delivered w (topicFor e.eventType),
    (buildEnvelope row).precedes e = true → Settled w row
  order : ∀ topic, ∀ a ∈ delivered w topic, ∀ b ∈ delivered w topic,
    topicFor a.eventType = topic → a.precedes b = true →
      (delivered w topic).idxOf a < (delivered w topic).idxOf b

/-- What happens while the publisher waits: rows come in behind those of their aggregate. -/
structure Still (pid : Nat) (w w' : World) : Prop where
  rows : ∀ row ∈ w.table, row ∈ w'.table
  fresh : ∀ row ∈ w'.table, row ∈ w.table ∨
    ∀ old ∈ w.table, (buildEnvelope row).precedes (buildEnvelope old) = false
  log : w'.log = w.log
  lock : ∀ i, w'.lock i = some pid → w.lock i = some pid

def Free (pid : Nat) (w : World) : Prop := ∀ i, w.lock i ≠ some pid

/-- All rows that a send to its own topic should come after are settled. -/
structure Due (w : World) (row : OutboxRow) : Prop where
  unpublished : row.publishedAt = none
  before : ∀ a ∈ w.table, (buildEnvelope a).precedes (buildEnvelope row) = true → Settled w a

def Wants (w : World) (pid : Nat) : Op → Prop
  | .sendAndWait topic e => ∃ row ∈ w.table, buildEnvelope row = e ∧
    (topic = topicFor row.eventType →
      Due w row ∧ (row.publishAttempts < maxPublishAttempts ∨ topic = topicDeadLetter))
  | .loop => Free pid w
  | _ => True

def layer : Layer World Op Nat where
  inv := Ordered
  rely pid r _ w w' := w'.process r = some pid → w.process r = some pid ∧ Still pid w w'
  req pid r w o := w.process r = some pid → Wants w pid o

section

variable {w w' w'' : World} {pid q r n : Nat} {row : OutboxRow} {topic : String} {e : Envelope}

theorem Still.refl (pid : Nat) (w : World) : Still pid w w :=
  ⟨fun _ h => h, fun _ h => .inl h, rfl, fun _ h => h⟩

theorem Still.trans (h : Still pid w w') (h' : Still pid w' w'') : Still pid w w'' where
  rows row hRow := h'.rows row (h.rows row hRow)
  fresh row hRow := by
    obtain hOld | hNew := h'.fresh row hRow
    · exact h.fresh row hOld
    · exact .inr fun old hOld => hNew old (h.rows old hOld)
  log := h'.log.trans h.log
  lock i hi := h.lock i (h'.lock i hi)

theorem steady : layer.Steady where
  refl pid r _ w hRun := ⟨hRun, Still.refl pid w⟩
  trans pid r _ w₁ w₂ w₃ h h' hRun := by
    obtain ⟨hRun', hStill'⟩ := h' hRun
    obtain ⟨hRun'', hStill⟩ := h hRun'
    exact ⟨hRun'', hStill.trans hStill'⟩

theorem Free.still (h : Free pid w) (hStill : Still pid w w') : Free pid w' :=
  fun i hi => h i (hStill.lock i hi)

theorem delivered_note_acked (w : World) (r : Nat) (t : String) (e : Envelope) (topic : String) :
    delivered (w.note r (.acked t e)) topic =
      if t = topic then delivered w topic ++ [e] else delivered w topic := by
  unfold delivered World.note
  rw [List.filterMap_append]
  split
  next h => simp [h]
  next h => simp [h]

theorem delivered_of_log (h : w'.log = w.log) (topic : String) :
    delivered w' topic = delivered w topic := by
  rw [delivered, delivered, h]

theorem Settled.mono (h : Settled w row)
    (hLog : ∀ topic, delivered w topic ⊆ delivered w' topic) : Settled w' row :=
  h.imp_left fun hMem => hLog _ hMem

/-- The rows, the processes and the deliveries stay, and locks are taken by `pid` only. -/
structure Calm (pid : Nat) (w w' : World) : Prop where
  table : w'.table = w.table
  process : w'.process = w.process
  delivered : ∀ topic, Publisher.delivered w' topic = Publisher.delivered w topic
  lock : ∀ i q, w'.lock i = some q → w.lock i = some q ∨ (q = pid ∧ ∃ row ∈ w.table, row.id = i)

theorem Ordered.calm (h : Ordered w) (hCalm : Calm pid w w') (hRun : w.process 0 = some pid) :
    Ordered w' := by
  have hSettled : ∀ row, Settled w row → Settled w' row := fun row hRow =>
    hRow.mono fun topic => by rw [hCalm.delivered]; exact fun _ hx => hx
  constructor
  case lone =>
    rw [hCalm.process]
    exact h.lone
  case held =>
    intro i q p hLock hProcess
    rw [hCalm.process] at hProcess
    obtain hOld | ⟨rfl, -⟩ := hCalm.lock i q hLock
    · exact h.held i q p hOld hProcess
    · exact Option.some.inj (hRun.symm.trans hProcess)
  case locked =>
    intro i q hLock
    rw [hCalm.table]
    obtain hOld | ⟨-, hRow⟩ := hCalm.lock i q hLock
    · exact h.locked i q hOld
    · exact hRow
  case known =>
    intro topic e he
    rw [hCalm.delivered] at he
    rw [hCalm.table]
    exact h.known topic e he
  case behind =>
    intro row hRow e he hPrecedes
    rw [hCalm.table] at hRow
    rw [hCalm.delivered] at he
    exact hSettled row (h.behind row hRow e he hPrecedes)
  case order =>
    intro topic
    rw [hCalm.delivered]
    exact h.order topic

theorem Calm.refl (pid : Nat) (w : World) : Calm pid w w :=
  ⟨rfl, rfl, fun _ => rfl, fun _ _ h => .inl h⟩

theorem calm_slept (pid r : Nat) (w : World) (s : ℚ) : Calm pid w (w.note r (.slept s)) :=
  ⟨rfl, rfl, fun _ => by simp [Publisher.delivered, World.note], fun _ _ h => .inl h⟩

theorem calm_refused (pid r : Nat) (w : World) (topic : String) (e : Envelope) :
    Calm pid w (w.note r (.refused topic e)) :=
  ⟨rfl, rfl, fun _ => by simp [Publisher.delivered, World.note], fun _ _ h => .inl h⟩

theorem calm_claimed {ids : List Id} {f : Tx → Tx} (hRows : ∀ i ∈ ids, ∃ row ∈ w.table, row.id = i) :
    Calm pid w (w.claimed pid ids f) := by
  refine ⟨rfl, rfl, fun _ => rfl, fun i q hLock => ?_⟩
  change (w.take pid (· ∈ ids)).lock i = some q at hLock
  rw [Transactions.Book.take_lock] at hLock
  split at hLock
  next hIn =>
    cases hLock
    exact .inr ⟨rfl, hRows i (of_decide_eq_true hIn)⟩
  · exact .inl hLock

theorem calm_endTx (pid q : Nat) (w : World) : Calm pid w (w.endTx q) :=
  ⟨rfl, rfl, fun _ => rfl, fun _ _ h => .inl (Transactions.Book.endTx_lock.mp h).1⟩

theorem free_endTx (pid : Nat) (w : World) : Free pid (w.endTx pid) :=
  fun _ h => (Transactions.Book.endTx_lock.mp h).2 rfl

theorem free_commit (pid : Nat) (w : World) : Free pid (w.commit pid) :=
  fun i h => free_endTx pid w i h

def Op.calm : Op → Bool
  | .sendAndWait _ _ | .commit | .loop | .exit => false
  | _ => true

theorem perform_calm {o : Op} {d : Decision} {out : Answer o} (ho : o.calm = true)
    (hNeeds : Needs w pid o) (h : perform w r pid n o d = some out) : Calm pid w out.shared := by
  cases o with
  | sendAndWait | commit | loop | exit => cases ho
  | selectBatch limit =>
    cases h
    refine calm_claimed fun i hi => ?_
    obtain ⟨row, hRow, rfl⟩ := List.mem_map.mp hi
    exact ⟨row, (mem_batch hRow).1, rfl⟩
  | incrementAttempts i =>
    obtain ⟨w₁, hUpdate, rfl⟩ := Option.map_eq_some_iff.mp h
    obtain ⟨-, rfl⟩ := update_eq hUpdate
    refine calm_claimed fun j hj => ?_
    obtain rfl := List.mem_singleton.mp hj
    obtain ⟨row, hRow, hId, -⟩ := hNeeds.1
    exact ⟨row, hRow, hId⟩
  | markPublished ids =>
    obtain ⟨w₁, hUpdate, rfl⟩ := Option.map_eq_some_iff.mp h
    obtain ⟨-, rfl⟩ := update_eq hUpdate
    refine calm_claimed fun j hj => ?_
    obtain ⟨row, hRow, hId, -⟩ := hNeeds j hj
    exact ⟨row, hRow, hId⟩
  | rollback =>
    cases h
    exact calm_endTx pid pid w
  | sleep s =>
    cases h
    exact calm_slept pid r w s
  | waitStop s =>
    simp only [perform] at h
    split at h <;> cases h
    · exact Calm.refl pid w
    · exact calm_slept pid r w s
  | _ =>
    cases h
    exact ⟨rfl, rfl, fun _ => rfl, fun _ _ h => .inl h⟩

theorem raised_calm (w : World) (r pid : Nat) (o : Op) : Calm pid w (w.raised r pid o) := by
  cases o with
  | commit | rollback => exact calm_endTx pid pid w
  | sendAndWait topic e => exact calm_refused pid r w topic e
  | _ => exact Calm.refl pid w

theorem idxOf_lt_snoc {α : Type} [DecidableEq α] {l : List α} {x a b : α} (ha : a ∈ l ++ [x])
    (hb : b ∈ l ++ [x]) (hOld : a ∈ l → b ∈ l → l.idxOf a < l.idxOf b)
    (hNew : a = x → b ∈ l → a ∈ l) (hNe : a ≠ b) : (l ++ [x]).idxOf a < (l ++ [x]).idxOf b := by
  have hLast : ∀ c ∈ l ++ [x], c ∉ l → c = x := fun c hc hNot =>
    List.mem_singleton.mp ((List.mem_append.mp hc).resolve_left hNot)
  by_cases haIn : a ∈ l
  · rw [List.idxOf_append_of_mem haIn]
    by_cases hbIn : b ∈ l
    · rw [List.idxOf_append_of_mem hbIn]
      exact hOld haIn hbIn
    · rw [List.idxOf_append_of_notMem hbIn]
      have hLt := List.idxOf_lt_length_of_mem haIn
      omega
  · have hax := hLast a ha haIn
    by_cases hbIn : b ∈ l
    · exact absurd (hNew hax hbIn) haIn
    · exact absurd (hax.trans (hLast b hb hbIn).symm) hNe

theorem delivered_of_due (h : Ordered w) (hRow : row ∈ w.table) (hDue : Due w row)
    (hLeft : row.publishAttempts < maxPublishAttempts ∨ topicFor row.eventType = topicDeadLetter)
    (he : e ∈ delivered w (topicFor row.eventType))
    (hPrecedes : (buildEnvelope row).precedes e = true) :
    buildEnvelope row ∈ delivered w (topicFor row.eventType) := by
  have hTopic : topicFor row.eventType = topicFor e.eventType := by
    simp only [Envelope.precedes, decide_eq_true_eq] at hPrecedes
    exact hPrecedes.2.1
  obtain hIn | hPublished | ⟨hMax, hOther⟩ := h.behind row hRow e (hTopic ▸ he) hPrecedes
  · exact hIn
  · rw [hDue.unpublished] at hPublished
    cases hPublished
  · obtain hFew | hDead := hLeft
    · omega
    · exact absurd hDead hOther

theorem Ordered.acked (h : Ordered w) {t : String} (hRow : row ∈ w.table)
    (hDue : t = topicFor row.eventType →
      Due w row ∧ (row.publishAttempts < maxPublishAttempts ∨ t = topicDeadLetter)) :
    Ordered (w.note r (.acked t (buildEnvelope row))) := by
  have hMore : ∀ topic, delivered w topic ⊆
      delivered (w.note r (.acked t (buildEnvelope row))) topic := by
    intro topic x hx
    rw [delivered_note_acked]
    split
    · exact List.mem_append_left _ hx
    · exact hx
  have hOnly : ∀ topic, ∀ e ∈ delivered (w.note r (.acked t (buildEnvelope row))) topic,
      e ∈ delivered w topic ∨ (t = topic ∧ e = buildEnvelope row) := by
    intro topic e he
    rw [delivered_note_acked] at he
    split at he
    next hTopic =>
      refine (List.mem_append.mp he).imp_right fun hLast => ⟨hTopic, ?_⟩
      exact List.mem_singleton.mp hLast
    · exact .inl he
  constructor
  case lone => exact h.lone
  case held => exact h.held
  case locked => exact h.locked
  case known =>
    intro topic e he
    obtain hOld | ⟨-, rfl⟩ := hOnly topic e he
    · exact h.known topic e hOld
    · exact ⟨row, hRow, rfl⟩
  case behind =>
    intro a ha e he hPrecedes
    obtain hOld | ⟨hTopic, rfl⟩ := hOnly _ e he
    · exact (h.behind a ha e hOld hPrecedes).mono hMore
    · exact ((hDue hTopic).1.before a ha hPrecedes).mono hMore
  case order =>
    intro topic a ha b hb hOwn hPrecedes
    have hSame := delivered_note_acked w r t (buildEnvelope row) topic
    rw [hSame] at ha hb ⊢
    by_cases hTopic : t = topic
    · rw [if_pos hTopic] at ha hb ⊢
      refine idxOf_lt_snoc ha hb (fun ha hb => h.order topic a ha b hb hOwn hPrecedes) ?_ ?_
      · rintro rfl hOld
        have hOwn' : topicFor row.eventType = topic := hOwn
        obtain ⟨hRowDue, hLeft⟩ := hDue (hTopic.trans hOwn.symm)
        rw [hTopic, ← hOwn'] at hLeft
        rw [← hOwn'] at hOld ⊢
        exact delivered_of_due h hRow hRowDue hLeft hOld hPrecedes
      · rintro rfl
        simp [Envelope.precedes] at hPrecedes
    · rw [if_neg hTopic] at ha hb ⊢
      exact h.order topic a ha b hb hOwn hPrecedes

theorem applyRows_published {ws : List Write} (h : row.publishedAt.isSome) :
    (applyRows ws row).publishedAt.isSome := by
  induction ws generalizing row with
  | nil => exact h
  | cons wr ws ih =>
    refine ih ?_
    cases wr with
    | markPublished ids at' =>
      simp only [Write.applyRow]
      split
      · rfl
      · exact h
    | incrementAttempts i =>
      simp only [Write.applyRow]
      split
      · exact h
      · exact h

theorem OutboxRow.Retired.applyRows (h : row.Retired) (ws : List Write) :
    (Publisher.applyRows ws row).Retired := by
  have hEffect := rowEffect ws row
  obtain hPublished | ⟨hMax, hTopic⟩ := h
  · exact .inl (applyRows_published hPublished)
  · have hType : (Publisher.applyRows ws row).eventType = row.eventType :=
      congrArg Envelope.eventType hEffect.envelope
    refine .inr ⟨?_, by rwa [hType]⟩
    rw [hEffect.attempts]
    omega

theorem Settled.commit (h : Settled w row) : Settled (w.commit pid) (applyRows (w.writes pid) row) := by
  have hEnvelope := (rowEffect (w.writes pid) row).envelope
  have hType : (applyRows (w.writes pid) row).eventType = row.eventType :=
    congrArg Envelope.eventType hEnvelope
  obtain hIn | hRetired := h
  · left
    rw [hEnvelope, hType]
    exact hIn
  · exact .inr (hRetired.applyRows _)

theorem Ordered.commit (h : Ordered w) (pid : Nat) : Ordered (w.commit pid) := by
  have hTable : (w.commit pid).table = w.table.map (applyRows (w.writes pid)) :=
    applyAll_eq_map _ _
  have hEnvelope : ∀ row, buildEnvelope (applyRows (w.writes pid) row) = buildEnvelope row :=
    fun row => (rowEffect _ row).envelope
  constructor
  case lone => exact h.lone
  case held => exact fun i q p hLock hRun => h.held i q p (Transactions.Book.endTx_lock.mp hLock).1 hRun
  case locked =>
    intro i q hLock
    obtain ⟨row, hRow, rfl⟩ := h.locked i q (Transactions.Book.endTx_lock.mp hLock).1
    rw [hTable]
    exact ⟨_, List.mem_map_of_mem hRow, buildEnvelope_id (hEnvelope row)⟩
  case known =>
    intro topic e he
    obtain ⟨row, hRow, rfl⟩ := h.known topic e he
    rw [hTable]
    exact ⟨_, List.mem_map_of_mem hRow, hEnvelope row⟩
  case behind =>
    intro row' hRow' e he hPrecedes
    rw [hTable] at hRow'
    obtain ⟨row, hRow, rfl⟩ := List.mem_map.mp hRow'
    rw [hEnvelope] at hPrecedes
    exact (h.behind row hRow e he hPrecedes).commit
  case order => exact h.order

theorem Ordered.spawn (h : Ordered w) (hTable : w'.table = w.table) (hLog : w'.log = w.log)
    (hLock : ∀ i q, w'.lock i = some q → w.lock i = some q)
    (hProcess : ∀ s, s ≠ 0 → w'.process s = none)
    (hFree : ∀ p, w'.process 0 = some p → ∀ i q, w.lock i = some q → q = p) : Ordered w' := by
  have hDelivered := delivered_of_log hLog
  constructor
  case lone => exact hProcess
  case held => exact fun i q p hi hRun => hFree p hRun i q (hLock i q hi)
  case locked =>
    intro i q hi
    rw [hTable]
    exact h.locked i q (hLock i q hi)
  case known =>
    intro topic e he
    rw [hDelivered] at he
    rw [hTable]
    exact h.known topic e he
  case behind =>
    intro row hRow e he hPrecedes
    rw [hTable] at hRow
    rw [hDelivered] at he
    exact (h.behind row hRow e he hPrecedes).mono fun topic => by
      rw [hDelivered]
      exact fun _ hx => hx
  case order =>
    intro topic
    rw [hDelivered]
    exact h.order topic

theorem Ordered.replica (h : Ordered w) (hRun : w.process r = some pid) : r = 0 := by
  by_contra hNe
  rw [h.lone r hNe] at hRun
  cases hRun

theorem perform_ordered {o : Op} {d : Decision} {out : Answer o} (h : Ordered w)
    (hRun : w.process r = some pid) (hNeeds : Needs w pid o) (hWants : Wants w pid o)
    (hOut : perform w r pid n o d = some out) : Ordered out.shared := by
  obtain rfl := h.replica hRun
  cases o with
  | sendAndWait t e =>
    cases hOut
    obtain ⟨row, hRow, rfl, hDue⟩ := hWants
    exact h.acked hRow hDue
  | commit =>
    cases hOut
    exact h.commit pid
  | loop =>
    cases hOut
    refine h.spawn rfl rfl (fun _ _ hi => hi) (fun s hs => ?_) fun p _ i q hi => ?_
    · dsimp only
      rw [Function.update_of_ne hs]
      exact h.lone s hs
    · obtain rfl := h.held i q pid hi hRun
      exact absurd hi (hWants i)
  | exit =>
    cases hOut
    refine h.spawn rfl rfl (fun _ _ hi => hi) (fun s hs => ?_) fun p hp => ?_
    · dsimp only
      rw [Function.update_of_ne hs]
      exact h.lone s hs
    · dsimp only at hp
      rw [Function.update_self] at hp
      cases hp
  | _ => exact h.calm (perform_calm rfl hNeeds hOut) hRun

theorem exec_ordered {o : Op} {d : Decision} {out : Answer o} (h : Ordered w)
    (hNeeds : w.process r = some pid → Needs w pid o)
    (hWants : w.process r = some pid → Wants w pid o)
    (hOut : exec w r pid n o d = some out) : Ordered out.shared := by
  obtain ⟨hRun, ⟨-, hOk⟩ | ⟨e, -, rfl⟩ | ⟨e, a, -, -, ha, rfl⟩⟩ := exec_cases hOut
  · exact perform_ordered h hRun (hNeeds hRun) (hWants hRun) hOk
  · obtain rfl := h.replica hRun
    exact h.calm (raised_calm w 0 pid o) hRun
  · have hKept : Ordered a.shared := perform_ordered h hRun (hNeeds hRun) (hWants hRun) ha
    exact hKept

theorem Ordered.insert (h : Ordered w) (hOk : inOrderEnv w (.insert row) = true) :
    Ordered { w with table := w.table ++ [row] } := by
  simp only [inOrderEnv, decide_eq_true_eq] at hOk
  constructor
  case lone => exact h.lone
  case held => exact h.held
  case locked =>
    intro i q hi
    obtain ⟨r, hr, hId⟩ := h.locked i q hi
    exact ⟨r, List.mem_append_left _ hr, hId⟩
  case known =>
    intro topic e he
    obtain ⟨r, hr, hEnv⟩ := h.known topic e he
    exact ⟨r, List.mem_append_left _ hr, hEnv⟩
  case behind =>
    intro r hr e he hPrecedes
    obtain hOld | hLast := List.mem_append.mp hr
    · exact h.behind r hOld e he hPrecedes
    · obtain rfl := List.mem_singleton.mp hLast
      obtain ⟨b, hb, rfl⟩ := h.known _ e he
      simp only [Envelope.precedes, decide_eq_true_eq] at hPrecedes
      obtain ⟨hKey, hTopic, hLt⟩ := hPrecedes
      have hLater := hOk b hb hKey.symm hTopic.symm
      exact absurd (lt_trans hLt hLater) (lt_irrefl _)
  case order => exact h.order

theorem env_ordered {a : EnvAction} {out : World × Option Nat} (h : Ordered w)
    (hOk : inOrderEnv w a = true) (hOut : env w n a = some out) : Ordered out.1 := by
  cases a with
  | insert row =>
    simp only [env] at hOut
    split at hOut
    · cases hOut
      exact h.insert hOk
    · cases hOut
  | boot r =>
    simp only [inOrderEnv, decide_eq_true_eq] at hOk
    obtain ⟨rfl, hUnlocked⟩ := hOk
    simp only [env] at hOut
    split at hOut
    · cases hOut
      refine h.spawn rfl rfl (fun _ _ hi => hi) (fun s hs => ?_) fun p _ i q hi => ?_
      · dsimp only
        rw [Function.update_of_ne hs]
        exact h.lone s hs
      · obtain ⟨row, hRow, rfl⟩ := h.locked i q hi
        rw [hUnlocked row hRow] at hi
        cases hi
    · cases hOut
  | crash r =>
    cases hOut
    refine h.spawn rfl rfl (fun _ _ hi => hi) (fun s hs => ?_) fun p hp i q hi => ?_
    · dsimp only
      rw [Function.update_apply]
      split
      · rfl
      · exact h.lone s hs
    · dsimp only at hp
      rw [Function.update_apply] at hp
      split at hp
      · cases hp
      · exact h.held i q p hi hp
  | reap q =>
    simp only [env] at hOut
    split at hOut
    · cases hOut
      refine h.spawn rfl rfl (fun _ _ hi => (Transactions.Book.endTx_lock.mp hi).1) h.lone fun p hp i q hi => ?_
      exact h.held i q p hi hp
    · cases hOut
  | sigterm r =>
    cases hOut
    exact h.spawn rfl rfl (fun _ _ hi => hi) h.lone fun p hp i q hi => h.held i q p hi hp
  | tick dt =>
    cases hOut
    exact h.spawn rfl rfl (fun _ _ hi => hi) h.lone fun p hp i q hi => h.held i q p hi hp

theorem exec_process {o : Op} {d : Decision} {out : Answer o}
    (h : exec w r pid n o d = some out) : out.shared.process = w.process ∨
      ∃ p, (p = some n ∨ p = none) ∧ out.shared.process = Function.update w.process r p := by
  have hPerform : ∀ a : Answer o, perform w r pid n o d = some a → a.shared.process = w.process ∨
      ∃ p, (p = some n ∨ p = none) ∧ a.shared.process = Function.update w.process r p := by
    intro a ha
    cases o with
    | loop =>
      cases ha
      exact .inr ⟨_, .inl rfl, rfl⟩
    | exit =>
      cases ha
      exact .inr ⟨_, .inr rfl, rfl⟩
    | incrementAttempts | markPublished =>
      obtain ⟨w₁, hUpdate, rfl⟩ := Option.map_eq_some_iff.mp ha
      obtain ⟨-, rfl⟩ := update_eq hUpdate
      exact .inl rfl
    | waitStop s =>
      simp only [perform] at ha
      split at ha <;> cases ha <;> exact .inl rfl
    | _ =>
      cases ha
      exact .inl rfl
  obtain ⟨-, ⟨-, hOk⟩ | ⟨e, -, rfl⟩ | ⟨e, a, -, -, ha, rfl⟩⟩ := exec_cases h
  · exact hPerform out hOk
  · exact .inl (raised_calm w r pid o).process
  · exact hPerform a ha

/-- A program whose round is over is not run by anyone else's call. -/
theorem exec_others {o : Op} {d : Decision} {out : Answer o} (hOrdered : Ordered out.shared)
    (hOld : Ordered w) (h : exec w r pid n o d = some out) (hq : q < n) (hNe : q ≠ pid)
    {u : Nat} : out.shared.process u ≠ some q := by
  intro hRun
  obtain rfl := hOrdered.replica hRun
  have hMine := (exec_cases h).1
  obtain rfl := hOld.replica hMine
  obtain hSame | ⟨p, hp, hNew⟩ := exec_process h
  · rw [hSame, hMine] at hRun
    exact hNe (Option.some.inj hRun).symm
  · rw [hNew, Function.update_self] at hRun
    obtain rfl | rfl := hp
    · obtain rfl := Option.some.inj hRun
      exact absurd hq (lt_irrefl _)
    · cases hRun

theorem env_still {a : EnvAction} {out : World × Option Nat} (hOk : inOrderEnv w a = true)
    (hOut : env w n a = some out) {u : Nat} (hq : q < n) (hRun : out.1.process u = some q) :
    w.process u = some q ∧ Still q w out.1 := by
  cases a with
  | insert row =>
    simp only [env] at hOut
    split at hOut
    · cases hOut
      simp only [inOrderEnv, decide_eq_true_eq] at hOk
      refine ⟨hRun, fun r hr => List.mem_append_left _ hr, fun r hr => ?_, rfl, fun _ hi => hi⟩
      refine (List.mem_append.mp hr).imp_right fun hLast old hOld => ?_
      obtain rfl := List.mem_singleton.mp hLast
      refine decide_eq_false ?_
      rintro ⟨hKey, hTopic, hLt⟩
      exact absurd (lt_trans hLt (hOk old hOld hKey.symm hTopic.symm)) (lt_irrefl _)
    · cases hOut
  | boot r =>
    simp only [env] at hOut
    split at hOut
    · cases hOut
      dsimp only at hRun
      rw [Function.update_apply] at hRun
      split at hRun
      · obtain rfl := Option.some.inj hRun
        exact absurd hq (lt_irrefl _)
      · exact ⟨hRun, fun _ h => h, fun _ h => .inl h, rfl, fun _ hi => hi⟩
    · cases hOut
  | crash r =>
    cases hOut
    dsimp only at hRun
    rw [Function.update_apply] at hRun
    split at hRun
    · cases hRun
    · exact ⟨hRun, fun _ h => h, fun _ h => .inl h, rfl, fun _ hi => hi⟩
  | reap p =>
    simp only [env] at hOut
    split at hOut
    · cases hOut
      exact ⟨hRun, fun _ h => h, fun _ h => .inl h, rfl, fun _ hi => (Transactions.Book.endTx_lock.mp hi).1⟩
    · cases hOut
  | sigterm | tick =>
    cases hOut
    exact ⟨hRun, fun _ h => h, fun _ h => .inl h, rfl, fun _ hi => hi⟩

end

/-- From `w`, every call of `p` finds what it wants, and every end meets `Q`. -/
abbrev Walks {α : Type} (pid r : Nat) (p : Coro α) (Q : Except Exn α → World → Prop) (w : World) :
    Prop :=
  layer.wp single contract pid r p Q w

section

variable {w w' : World} {pid r n : Nat} {α β : Type} {row : OutboxRow} {rows : List OutboxRow}

/-- What a program finds at its next call. -/
structure Found (pid r n : Nat) (w w' : World) : Prop where
  running : w'.process r = some pid
  leaves : Leaves pid w w'
  still : Still pid w w'
  inv : Inv n w'
  ordered : Ordered w'

namespace Walks

theorem ask {o : Op} {Q : Except Exn o.Res → World → Prop}
    (h : ∀ w₁ n, Found pid r n w w₁ → Wants w₁ pid o ∧
      ∀ d out, inOrderOp w₁ o d = true → exec w₁ r pid n o d = some out → Q out.result out.shared) :
    Walks pid r (Publisher.ask o) Q w := by
  intro w₁ n _ hRely hRely' hInv hOrdered _
  have hFound : w₁.process r = some pid → Found pid r n w w₁ := fun hRun =>
    ⟨hRun, hRely.leaves (hInv.running r pid hRun).2, (hRely' hRun).2, hInv, hOrdered⟩
  refine ⟨fun hRun => (h w₁ n (hFound hRun)).1, fun d out hOut => ?_⟩
  obtain ⟨hOk, hExec⟩ := restrict_exec hOut
  exact (h w₁ n (hFound (exec_cases hExec).1)).2 d out hOk hExec

theorem bind {p : Coro α} {f : α → Coro β} {Q : Except Exn β → World → Prop}
    {P : Except Exn α → World → Prop} (h : Walks pid r p P w)
    (hOk : ∀ a w', P (.ok a) w' → Walks pid r (f a) Q w')
    (hError : ∀ e w', P (.error e) w' → Q (.error e) w') : Walks pid r (p >>= f) Q w := by
  refine Layer.wp_bind (Layer.wp_mono h fun res w' hRes => ?_)
  cases res with
  | ok a => exact hOk a w' hRes
  | error e => exact hError e w' hRes

theorem handle {p : Coro α} {f : Exn → Coro α} {Q P : Except Exn α → World → Prop}
    (h : Walks pid r p P w) (hOk : ∀ a w', P (.ok a) w' → Q (.ok a) w')
    (hError : ∀ e w', P (.error e) w' → Walks pid r (f e) Q w') : Walks pid r (p.handle f) Q w := by
  refine Layer.wp_handle (Layer.wp_mono h fun res w' hRes => ?_)
  cases res with
  | ok a => exact hOk a w' hRes
  | error e => exact hError e w' hRes

theorem free {o : Op} (h : Free pid w) (hWants : ∀ w₁, Free pid w₁ → Wants w₁ pid o)
    (hLock : ∀ w₁ n d (out : Answer o), perform w₁ r pid n o d = some out →
      out.shared.lock = w₁.lock) (hEnds : o ≠ .commit ∧ o ≠ .rollback) :
    Walks pid r (Publisher.ask o) (fun _ => Free pid) w := by
  refine ask fun w₁ n hFound => ?_
  have h₁ := h.still hFound.still
  refine ⟨hWants w₁ h₁, fun d out _ hExec => ?_⟩
  have hSame : ∀ w₂ : World, w₂.lock = w₁.lock → Free pid w₂ := fun w₂ hEq i => by
    rw [hEq]
    exact h₁ i
  obtain ⟨-, ⟨-, hOk⟩ | ⟨e, -, rfl⟩ | ⟨e, a, -, -, ha, rfl⟩⟩ := exec_cases hExec
  · exact hSame _ (hLock w₁ n d out hOk)
  · refine hSame _ ?_
    cases o with
    | commit => exact absurd rfl hEnds.1
    | rollback => exact absurd rfl hEnds.2
    | _ => rfl
  · exact hSame _ (hLock w₁ n d a ha)

end Walks

/-- The rows of the batch that are still to come: what should come before one of them is
among them or settled. -/
structure Sweep (w : World) (pid : Nat) (rows : List OutboxRow) : Prop where
  held : ∀ row ∈ rows, row ∈ w.table ∧ w.lock row.id = some pid ∧ row.publishedAt = none
  sorted : rows.Pairwise fun a b => a.occurredAt ≤ b.occurredAt
  clear : ∀ row ∈ rows, ∀ a ∈ w.table, (buildEnvelope a).precedes (buildEnvelope row) = true →
    a ∈ rows ∨ Settled w a

theorem Sweep.found (h : Sweep w pid rows) (hFound : Found pid r n w w') : Sweep w' pid rows where
  held row hRow := by
    obtain ⟨hIn, hLock, hNone⟩ := h.held row hRow
    exact ⟨hFound.still.rows row hIn, hFound.leaves.lock row.id hLock, hNone⟩
  sorted := h.sorted
  clear row hRow a ha hPrecedes := by
    obtain hOld | hNew := hFound.still.fresh a ha
    · refine (h.clear row hRow a hOld hPrecedes).imp_right fun hSettled => hSettled.mono fun topic => ?_
      rw [delivered_of_log hFound.still.log]
      exact fun _ hx => hx
    · rw [hNew row (h.held row hRow).1] at hPrecedes
      cases hPrecedes

theorem Sweep.same (h : Sweep w pid rows) (hTable : w'.table = w.table)
    (hLock : ∀ i, w.lock i = some pid → w'.lock i = some pid)
    (hMore : ∀ topic, delivered w topic ⊆ delivered w' topic) : Sweep w' pid rows where
  held row hRow := by
    obtain ⟨hIn, hLocked, hNone⟩ := h.held row hRow
    exact ⟨hTable ▸ hIn, hLock row.id hLocked, hNone⟩
  sorted := h.sorted
  clear row hRow a ha hPrecedes := by
    rw [hTable] at ha
    exact (h.clear row hRow a ha hPrecedes).imp_right fun hSettled => hSettled.mono hMore

theorem Sweep.due (h : Sweep w pid (row :: rows)) : Due w row where
  unpublished := (h.held row List.mem_cons_self).2.2
  before a ha hPrecedes := by
    refine (h.clear row List.mem_cons_self a ha hPrecedes).resolve_left fun hIn => ?_
    simp only [Envelope.precedes, decide_eq_true_eq] at hPrecedes
    obtain rfl | hIn := List.mem_cons.mp hIn
    · exact absurd hPrecedes.2.2 (lt_irrefl _)
    · exact absurd hPrecedes.2.2 (not_lt.mpr ((List.pairwise_cons.mp h.sorted).1 a hIn))

theorem Sweep.next (h : Sweep w pid (row :: rows))
    (hDone : Settled w row ∨
      ∀ later ∈ rows, (buildEnvelope row).precedes (buildEnvelope later) = false) :
    Sweep w pid rows where
  held later hLater := h.held later (List.mem_cons_of_mem _ hLater)
  sorted := (List.pairwise_cons.mp h.sorted).2
  clear later hLater a ha hPrecedes := by
    obtain hIn | hSettled := h.clear later (List.mem_cons_of_mem _ hLater) a ha hPrecedes
    · obtain rfl | hIn := List.mem_cons.mp hIn
      · obtain hSettled | hNot := hDone
        · exact .inr hSettled
        · rw [hNot later hLater] at hPrecedes
          cases hPrecedes
      · exact .inl hIn
    · exact .inr hSettled

theorem exec_send {topic : String} {e : Envelope} {d : Decision}
    {out : Answer (.sendAndWait topic e)} (h : exec w r pid n (.sendAndWait topic e) d = some out) :
    out = ⟨w.note r (.acked topic e), .ok (), none⟩ ∨
      ∃ x, d.fault = .fail x ∧ out = ⟨w.note r (.refused topic e), .error x, none⟩ := by
  simp only [exec] at h
  split at h
  · cases h
  · cases hFault : d.fault with
    | none =>
      rw [hFault] at h
      cases h
      exact .inl rfl
    | fail x =>
      rw [hFault] at h
      cases h
      exact .inr ⟨x, rfl, rfl⟩
    | lost x =>
      rw [hFault] at h
      simp [Op.lossy] at h

theorem walks_sent {topic : String} (h : Sweep w pid (row :: rows))
    (hTopic : topic = topicFor row.eventType →
      row.publishAttempts < maxPublishAttempts ∨ topic = topicDeadLetter) :
    Walks pid r (sent topic (buildEnvelope row)) (fun res w' => ∀ b, res = .ok b →
      Sweep w' pid (row :: rows) ∧
      (b = true → buildEnvelope row ∈ delivered w' topic) ∧
      (b = false → topic = topicFor row.eventType →
        ∀ later ∈ rows, (buildEnvelope row).precedes (buildEnvelope later) = false)) w := by
  refine Layer.wp_handle (Layer.wp_bind (Walks.ask fun w₁ n hFound => ?_))
  have h₁ := h.found hFound
  refine ⟨⟨row, (h₁.held row List.mem_cons_self).1, rfl, fun hOwn => ⟨h₁.due, hTopic hOwn⟩⟩, ?_⟩
  intro d out hOk hExec
  obtain rfl | ⟨x, hFault, rfl⟩ := exec_send hExec
  · have hDelivered := delivered_note_acked w₁ r topic (buildEnvelope row)
    rintro b ⟨⟩
    refine ⟨h₁.same rfl (fun _ hi => hi) fun t x hx => ?_, fun _ => ?_, fun hb => by cases hb⟩
    · rw [hDelivered]
      split
      · exact List.mem_append_left _ hx
      · exact hx
    · rw [hDelivered, if_pos rfl]
      exact List.mem_append_right _ (List.mem_singleton_self _)
  · cases x with
    | fault | cancelled =>
      intro b hb
      cases hb
    | kafka =>
      rintro b ⟨⟩
      have hSame := (calm_refused pid r w₁ topic (buildEnvelope row)).delivered
      refine ⟨h₁.same rfl (fun _ hi => hi) fun t => ?_, fun hb => (by cases hb), ?_⟩
      · rw [hSame]
        exact fun _ hx => hx
      · rintro - hOwn later hLater
        simp only [inOrderOp, hFault, decide_eq_true_eq, ne_eq, not_true_eq_false, false_or] at hOk
        obtain hOther | hApart := hOk
        · exact absurd hOwn hOther
        · obtain ⟨hIn, hLock, -⟩ := h₁.held later (List.mem_cons_of_mem _ hLater)
          rw [Bool.eq_false_iff]
          intro hPrecedes
          refine hApart later hIn hPrecedes ?_
          rw [hLock]
          exact ((h₁.held row List.mem_cons_self).2.1).symm

theorem Sweep.ask {o : Op} (h : Sweep w pid rows) (hWants : ∀ w₁, Wants w₁ pid o)
    (hKeeps : ∀ w₁ n d (out : Answer o), perform w₁ r pid n o d = some out →
      out.shared.table = w₁.table ∧ out.shared.log = w₁.log ∧
        ∀ i, w₁.lock i = some pid → out.shared.lock i = some pid) :
    Walks pid r (Publisher.ask o) (fun res w' => ∀ a, res = .ok a → Sweep w' pid rows) w := by
  refine Walks.ask fun w₁ n hFound => ⟨hWants w₁, fun d out _ hExec a ha => ?_⟩
  obtain ⟨-, ⟨-, hOk⟩ | ⟨e, -, rfl⟩ | ⟨e, b, -, -, -, rfl⟩⟩ := exec_cases hExec
  · obtain ⟨hTable, hLog, hLock⟩ := hKeeps w₁ n d out hOk
    refine (h.found hFound).same hTable hLock fun topic => ?_
    rw [delivered_of_log hLog]
    exact fun _ hx => hx
  · cases ha
  · cases ha

theorem walks_processRow (h : Sweep w pid (row :: rows)) :
    Walks pid r (processRow row) (fun res w' => ∀ b, res = .ok b → Sweep w' pid rows) w := by
  have hPop : ∀ w₁, Sweep w₁ pid rows →
      Walks pid r (do ask (.popBackoff row.id); return true)
        (fun res w' => ∀ b, res = .ok b → Sweep w' pid rows) w₁ := by
    intro w₁ h₁
    refine Walks.bind (h₁.ask (fun _ => trivial) fun w₂ n d out hOk => ?_) ?_ fun e w' _ b hb => ?_
    · cases hOk
      exact ⟨rfl, rfl, fun _ hi => hi⟩
    · exact fun a w' hNext b _ => hNext a rfl
    · cases hb
  unfold processRow
  dsimp only
  split
  next hMany =>
    refine Walks.bind (walks_sent h fun _ => .inr rfl) (fun b w₁ hSent => ?_) fun e w' _ b hb => ?_
    · obtain ⟨h₁, hAcked, hApart⟩ := hSent b rfl
      by_cases hDead : topicDeadLetter = topicFor row.eventType
      · cases b with
        | true => exact hPop w₁ (h₁.next (.inl (.inl (hDead ▸ hAcked rfl))))
        | false =>
          rintro b ⟨⟩
          exact h₁.next (.inr (hApart rfl hDead))
      · have hRetired : Settled w₁ row := .inr (.inr ⟨hMany, Ne.symm hDead⟩)
        cases b with
        | true => exact hPop w₁ (h₁.next (.inl hRetired))
        | false =>
          rintro b ⟨⟩
          exact h₁.next (.inl hRetired)
    · cases hb
  next hFew =>
    refine Walks.bind (walks_sent h fun _ => .inl (by omega)) (fun b w₁ hSent => ?_)
      fun e w' _ b hb => ?_
    · obtain ⟨h₁, hAcked, hApart⟩ := hSent b rfl
      cases b with
      | true => exact hPop w₁ (h₁.next (.inl (.inl (hAcked rfl))))
      | false =>
        have h₂ := h₁.next (.inr (hApart rfl rfl))
        refine Walks.bind (h₂.ask (fun _ => trivial) fun w₃ n d out hOk => ?_)
          (fun a w₃ hNext => ?_) fun e w' _ b hb => ?_
        · obtain ⟨w₄, hUpdate, rfl⟩ := Option.map_eq_some_iff.mp hOk
          obtain ⟨hFree, rfl⟩ := update_eq hUpdate
          exact ⟨rfl, rfl, fun i hi => claimed_lock hi hFree⟩
        · have h₃ := hNext a rfl
          refine Walks.bind (h₃.ask (fun _ => trivial) fun w₃ n d out hOk => ?_) ?_
            fun e w' _ b hb => ?_
          · cases hOk
            exact ⟨rfl, rfl, fun _ hi => hi⟩
          · exact fun a w' hNext b _ => hNext a rfl
          · cases hb
        · cases hb
    · cases hb

theorem walks_processRows {ids : List Id} (h : Sweep w pid rows) :
    Walks pid r (processRows rows ids) (fun _ _ => True) w := by
  induction rows generalizing ids w with
  | nil => trivial
  | cons row rows ih =>
    refine Walks.bind (walks_processRow h) (fun b w₁ hNext => ?_) fun _ _ _ => trivial
    have h₁ := hNext b rfl
    cases b with
    | true => exact ih h₁
    | false => exact ih h₁

theorem before_total (order : List Id) (a b : OutboxRow) :
    before order a b = true ∨ before order b a = true := by
  simp only [before, decide_eq_true_eq]
  rcases lt_trichotomy a.occurredAt b.occurredAt with h | h | h
  · exact .inl (.inl h)
  · rcases le_total (order.idxOf a.id) (order.idxOf b.id) with h' | h'
    · exact .inl (.inr ⟨h, h'⟩)
    · exact .inr (.inr ⟨h.symm, h'⟩)
  · exact .inr (.inl h)

theorem before_trans (order : List Id) (a b c : OutboxRow) (hab : before order a b = true)
    (hbc : before order b c = true) : before order a c = true := by
  simp only [before, decide_eq_true_eq] at hab hbc ⊢
  rcases hab with hab | ⟨hab, hab'⟩ <;> rcases hbc with hbc | ⟨hbc, hbc'⟩
  · exact .inl (lt_trans hab hbc)
  · exact .inl (hbc ▸ hab)
  · exact .inl (hab ▸ hbc)
  · exact .inr ⟨hab.trans hbc, hab'.trans hbc'⟩

theorem before_le {order : List Id} {a b : OutboxRow} (h : before order a b = true) :
    a.occurredAt ≤ b.occurredAt := by
  simp only [before, decide_eq_true_eq] at h
  rcases h with h | h
  · exact le_of_lt h
  · exact le_of_eq h.1

theorem available_sorted (w : World) (order : List Id) :
    (w.available.insertionSort fun a b => before order a b).Pairwise
      fun a b => before order a b = true := by
  have hTotal : Std.Total fun a b : OutboxRow => before order a b = true :=
    ⟨before_total order⟩
  have hTrans : IsTrans OutboxRow fun a b => before order a b = true := ⟨before_trans order⟩
  exact List.pairwise_insertionSort _ _

theorem sweep_batch {limit : Nat} {order : List Id} {f : Tx → Tx}
    (hUnlocked : ∀ row ∈ w.table, w.lock row.id = none) :
    Sweep (w.claimed pid ((w.batch limit order).map (·.id)) f) pid (w.batch limit order) where
  held row hRow := by
    have hSorted := List.mem_of_mem_take hRow
    rw [List.mem_insertionSort, World.available, List.mem_filter, decide_eq_true_eq] at hSorted
    exact ⟨hSorted.1, claimed_mine (List.mem_map_of_mem hRow), hSorted.2.1⟩
  sorted := by
    have hTake := (available_sorted w order).sublist (List.take_sublist limit _)
    exact hTake.imp before_le
  clear row hRow a ha hPrecedes := by
    cases hPublished : a.publishedAt with
    | some t => exact .inr (.inr (.inl (by rw [hPublished]; rfl)))
    | none =>
      left
      have hAvailable : a ∈ w.available.insertionSort fun a b => before order a b := by
        rw [List.mem_insertionSort, World.available, List.mem_filter, decide_eq_true_eq]
        exact ⟨ha, hPublished, hUnlocked a ha⟩
      by_contra hNot
      have hDrop : a ∈ (w.available.insertionSort fun a b => before order a b).drop limit := by
        rw [← List.take_append_drop limit
          (w.available.insertionSort fun a b => before order a b)] at hAvailable
        exact (List.mem_append.mp hAvailable).resolve_left hNot
      have hPairs := available_sorted w order
      rw [← List.take_append_drop limit
        (w.available.insertionSort fun a b => before order a b)] at hPairs
      have hLe := before_le ((List.pairwise_append.mp hPairs).2.2 row hRow a hDrop)
      simp only [Envelope.precedes, decide_eq_true_eq] at hPrecedes
      exact absurd hPrecedes.2.2 (not_lt.mpr hLe)

theorem walks_ends {o : Op} (ho : o = .commit ∨ o = .rollback) :
    Walks pid r (ask o) (fun _ => Free pid) w := by
  refine Walks.ask fun w₁ n _ => ?_
  obtain rfl | rfl := ho
  · refine ⟨trivial, fun d out _ hExec => ?_⟩
    obtain ⟨-, ⟨-, hOk⟩ | ⟨e, -, rfl⟩ | ⟨e, a, -, -, ha, rfl⟩⟩ := exec_cases hExec
    · cases hOk
      exact free_commit pid w₁
    · exact free_endTx pid w₁
    · cases ha
      exact free_commit pid w₁
  · refine ⟨trivial, fun d out _ hExec => ?_⟩
    obtain ⟨-, ⟨-, hOk⟩ | ⟨e, -, rfl⟩ | ⟨e, a, -, hLossy, -, rfl⟩⟩ := exec_cases hExec
    · cases hOk
      exact free_endTx pid w₁
    · exact free_endTx pid w₁
    · cases hLossy

theorem walks_inTransaction {p : Coro α} (h : Free pid w)
    (hBody : ∀ w₁, Free pid w₁ → Walks pid r p (fun _ _ => True) w₁) :
    Walks pid r (inTransaction p) (fun _ => Free pid) w := by
  refine Walks.bind (Walks.free h (fun _ _ => trivial) ?_ (by simp)) (fun _ w₁ h₁ => ?_)
    fun _ _ hFree => hFree
  · intro w₁ n d out hOk
    cases hOk
    rfl
  · refine Walks.bind (P := fun res w' => ∀ e, res = .error e → Free pid w')
      (Walks.handle (hBody w₁ h₁) (fun a w' _ e he => (by cases he)) fun e w' _ => ?_)
      (fun a w₂ _ => ?_) fun e w₂ hFree => hFree e rfl
    · exact Walks.bind (walks_ends (.inr rfl)) (fun _ w₃ hFree _ _ => hFree)
        fun _ w₃ hFree _ _ => hFree
    · exact Walks.bind (walks_ends (.inl rfl)) (fun _ w₃ hFree => hFree) fun _ w₃ hFree => hFree

theorem walks_processBatch (h : Free pid w) : Walks pid r processBatch (fun _ => Free pid) w := by
  refine walks_inTransaction h fun w₁ h₁ => ?_
  refine Walks.bind (P := fun res w' => ∀ rows, res = .ok rows → Sweep w' pid rows)
    (Walks.ask fun w₂ n hFound => ⟨trivial, fun d out _ hExec rows hRows => ?_⟩)
    (fun rows w₂ hSweep => ?_) fun _ _ _ => trivial
  · have hUnlocked : ∀ row ∈ w₂.table, w₂.lock row.id = none := by
      intro row _
      cases hLock : w₂.lock row.id with
      | none => rfl
      | some q =>
        have hRun := hFound.running
        obtain rfl := hFound.ordered.replica hRun
        obtain rfl := hFound.ordered.held row.id q pid hLock hRun
        exact absurd hLock (h₁.still hFound.still row.id)
    obtain ⟨-, ⟨-, hOk⟩ | ⟨e, -, rfl⟩ | ⟨e, a, -, -, ha, rfl⟩⟩ := exec_cases hExec
    · cases hOk
      cases hRows
      exact sweep_batch hUnlocked
    · cases hRows
    · cases hRows
  · refine Walks.bind (walks_processRows (hSweep rows rfl)) (fun ids w₃ _ => ?_) fun _ _ _ => trivial
    split
    · refine Walks.bind (P := fun _ _ => True) (Walks.ask fun w₄ n _ => ⟨trivial, ?_⟩)
        (fun _ _ _ => trivial) fun _ _ _ => trivial
      exact fun _ _ _ _ => trivial
    · trivial

theorem walks_pollOnce (h : Free pid w) : Walks pid r pollOnce (fun _ => Free pid) w := by
  have hSleep : ∀ (s : ℚ) (w₁ : World), Free pid w₁ →
      Walks pid r (ask (.sleep s)) (fun _ => Free pid) w₁ := by
    intro s w₁ h₁
    refine Walks.free h₁ (fun _ _ => trivial) (fun w₂ n d out hOk => ?_) (by simp)
    cases hOk
    rfl
  have hWait : ∀ (s : ℚ) (w₁ : World), Free pid w₁ →
      Walks pid r (ask (.waitStop s)) (fun _ => Free pid) w₁ := by
    intro s w₁ h₁
    refine Walks.free h₁ (fun _ _ => trivial) (fun w₂ n d out hOk => ?_) (by simp)
    simp only [perform] at hOk
    split at hOk <;> cases hOk <;> rfl
  refine Walks.bind (P := fun _ => Free pid) ?_ (fun res w₁ h₁ => ?_) fun _ _ hFree => hFree
  · refine Walks.handle (P := fun _ => Free pid) ?_ (fun _ _ hFree => hFree) fun e w₁ h₁ => ?_
    · exact Walks.bind (walks_processBatch h) (fun _ _ hFree => hFree) fun _ _ hFree => hFree
    · cases e <;> exact h₁
  · cases res with
    | none => exact hSleep _ w₁ h₁
    | some published =>
      dsimp only
      split
      · refine Walks.bind (Walks.free h₁ (fun _ _ => trivial) (fun w₂ n d out hOk => ?_) (by simp))
          (fun b w₂ h₂ => hWait _ w₂ h₂) fun _ _ hFree => hFree
        cases hOk
        rfl
      · exact h₁

theorem walks_round (h : Free pid w) : Walks pid r round (fun _ _ => True) w := by
  have hLast : ∀ w₁, Walks pid r (ask .exit) (fun _ _ => True) w₁ := fun w₁ =>
    Walks.ask fun w₂ n _ => ⟨trivial, fun _ _ _ _ => trivial⟩
  refine Walks.bind (Walks.free h (fun _ _ => trivial) (fun w₂ n d out hOk => ?_) (by simp))
    (fun stop w₁ h₁ => ?_) fun _ _ _ => trivial
  · cases hOk
    rfl
  · split
    · exact hLast w₁
    · refine Walks.handle (P := fun _ _ => True) ?_ (fun _ _ _ => trivial) fun e w₂ _ => hLast w₂
      refine Walks.bind (walks_pollOnce h₁) (fun _ w₂ h₂ => ?_) fun _ _ _ => trivial
      exact Walks.ask fun w₃ n hFound => ⟨h₂.still hFound.still, fun _ _ _ _ => trivial⟩

end

theorem exec_spawned {w : World} {r pid n : Nat} {o : Op} {d : Decision} {out : Answer o}
    (h : exec w r pid n o d = some out) {t : Nat} (hSpawned : out.spawned = some t) :
    o = .loop ∧ out.shared.lock = w.lock := by
  have hPerform : ∀ a : Answer o, perform w r pid n o d = some a → a.spawned = some t →
      o = .loop ∧ a.shared.lock = w.lock := by
    intro a ha hNew
    cases o with
    | loop =>
      cases ha
      exact ⟨rfl, rfl⟩
    | incrementAttempts | markPublished =>
      obtain ⟨w₁, -, rfl⟩ := Option.map_eq_some_iff.mp ha
      cases hNew
    | waitStop s =>
      simp only [perform] at ha
      split at ha <;> cases ha <;> cases hNew
    | _ =>
      cases ha
      cases hNew
  obtain ⟨-, ⟨-, hOk⟩ | ⟨e, -, rfl⟩ | ⟨e, a, -, -, ha, rfl⟩⟩ := exec_cases h
  · exact hPerform out hOk hSpawned
  · cases hSpawned
  · exact hPerform a ha hSpawned

theorem env_spawned {w : World} {n : Nat} {a : EnvAction} {out : World × Option Nat}
    (hOrdered : Ordered w) (hOk : inOrderEnv w a = true) (h : env w n a = some out) {t : Nat}
    (hSpawned : out.2 = some t) : ∀ i, out.1.lock i = none := by
  cases a with
  | boot r =>
    simp only [inOrderEnv, decide_eq_true_eq] at hOk
    simp only [env] at h
    split at h
    · cases h
      intro i
      cases hLock : w.lock i with
      | none => rfl
      | some q =>
        obtain ⟨row, hRow, rfl⟩ := hOrdered.locked i q hLock
        rw [hOk.2 row hRow] at hLock
        cases hLock
    · cases h
  | insert | reap =>
    simp only [env] at h
    split at h <;> cases h
    cases hSpawned
  | crash | sigterm | tick =>
    cases h
    cases hSpawned

theorem sound_single : Sound single contract := sound.restrict

theorem fits : layer.Fits single contract where
  steady := steady
  exec w r pid n o d out _ hOrdered hNeeds hWants hOut := by
    obtain ⟨-, hExec⟩ := restrict_exec hOut
    have hAfter := exec_ordered hOrdered hNeeds hWants hExec
    refine ⟨hAfter, fun q u o' hq hNe hRun => ?_, fun t hSpawned => walks_round fun i hi => ?_⟩
    · exact absurd hRun (exec_others hAfter hOrdered hExec hq hNe)
    · obtain ⟨rfl, hSame⟩ := exec_spawned hExec hSpawned
      have hMine := (exec_cases hExec).1
      obtain rfl := hOrdered.replica hMine
      rw [hSame] at hi
      obtain rfl := hOrdered.held i n pid hi hMine
      exact hWants hMine i hi
  env w n a out _ hOrdered hOut := by
    obtain ⟨hOk, hEnv⟩ := restrict_env hOut
    have hAfter := env_ordered hOrdered hOk hEnv
    refine ⟨hAfter, fun q u o' hq hRun => env_still hOk hEnv hq hRun, fun t hSpawned => ?_⟩
    refine walks_round fun i hi => ?_
    rw [env_spawned hOrdered hOk hEnv hSpawned i] at hi
    cases hi

theorem ordered_of_reach {S : PublisherState}
    (h : publisher.Reach (fun S l => Machine.admits inOrderOp inOrderEnv S l = true) blank S) :
    Ordered S.shared := by
  have hBlank : layer.Carried single contract blank := by
    refine ⟨kept_blank.restrict, ?_, fun pid p hp => (by cases hp)⟩
    constructor <;> simp [blank, delivered]
  exact (hBlank.reach fits sound_single h.restrict).inv

end LiveQuiz.Publisher
