import WowDb.Lib.Bytes
import WowDb.Lib.OrdMap
import WowDb.Lib.Run

/-!
# The buffer for asynchronous inserts

`query-node/src/ingestion/async_insert.rs`.
-/
namespace WowDb.Query
open WowDb.Lib List

structure AsyncInsertConfig where
  maxRows : Nat
  maxBytes : Nat
  flushInterval : Nat
  channelCap : Nat

def AsyncInsertConfig.default : AsyncInsertConfig := ⟨100000, 128 * 1024 * 1024, 5 * 10 ^ 9, 1024⟩

structure InsertRow where
  cubeName : String
  columns : OrdMap String Bytes

def InsertRow.approxBytes (row : InsertRow) : Nat :=
  (row.columns.entries.map fun e => e.2.length + 16).sum

structure Sent where
  sender : Nat
  row : InsertRow

inductive FlushReason where
  | rowLimit | byteLimit | timeout | shutdown
  deriving DecidableEq

structure FlushBatch where
  cubeName : String
  rows : List Sent
  reason : FlushReason

structure CubeBuffer where
  rows : List Sent
  totalBytes : Nat
  lastInsert : Nat

namespace CubeBuffer

def new (now : Nat) : CubeBuffer := ⟨[], 0, now⟩

def push (b : CubeBuffer) (sent : Sent) (now : Nat) : CubeBuffer :=
  ⟨b.rows ++ [sent], b.totalBytes + sent.row.approxBytes, now⟩

def needsFlush (cfg : AsyncInsertConfig) (now : Nat) (b : CubeBuffer) : Option FlushReason :=
  if cfg.maxRows ≤ b.rows.length then some .rowLimit
  else if cfg.maxBytes ≤ b.totalBytes then some .byteLimit
  else if cfg.flushInterval ≤ now - b.lastInsert ∧ b.rows.isEmpty = false then some .timeout
  else none

def drained (b : CubeBuffer) : CubeBuffer := { b with rows := [], totalBytes := 0 }

end CubeBuffer

/-- Where the task is: in the `select!`, with or without the signal; sending batches, after
which it goes on or, on its way out, returns; or done. -/
inductive Control where
  | waiting (notified : Bool)
  | sending (queue : List FlushBatch) (leaving : Bool)
  | ended

def Control.notify : Control → Control
  | .waiting _ => .waiting true
  | other => other

def Control.queue : Control → List FlushBatch
  | .sending queue _ => queue
  | _ => []

def Control.leaves : Control → Bool
  | .sending _ leaving => leaving
  | .ended => true
  | .waiting _ => false

structure AsyncInsertBuffer where
  channel : List Sent
  buffers : OrdMap String CubeBuffer
  control : Control
  /-- All batches that were sent; the first `consumed` of them have been taken. -/
  flushed : List FlushBatch
  consumed : Nat
  /-- The rows that the task took out of the channel, and those that went with the channel. -/
  received : List Sent
  dropped : List Sent
  /-- The number of rows that had been accepted when `shutdown` was called. -/
  shutdownAfter : Option Nat

namespace AsyncInsertBuffer

def flushChannelCap : Nat := 64

def new : AsyncInsertBuffer := ⟨[], .empty, .sending [] false, [], 0, [], [], none⟩

def accepted (s : AsyncInsertBuffer) : List Sent := s.received ++ s.channel ++ s.dropped

inductive Action where
  | insert (sent : Sent)
  | recv (createdAt pushedAt checkedAt : Nat)
  | tick (checkedAt : String → Nat)
  | takeShutdown
  | send
  | resume
  | nextBatch
  | shutdown

def batches (reason : String → CubeBuffer → Option FlushReason) (entries : List (String × CubeBuffer)) :
    List FlushBatch :=
  entries.filterMap fun (cube, b) =>
    if b.rows.isEmpty then none else (reason cube b).map fun why => ⟨cube, b.rows, why⟩

variable (cfg : AsyncInsertConfig) (H : HashIteration String CubeBuffer)

def receive (s : AsyncInsertBuffer) (sent : Sent) (rest : List Sent)
    (createdAt pushedAt checkedAt : Nat) : AsyncInsertBuffer :=
  let cube := sent.row.cubeName
  let b := ((s.buffers.get? cube).getD (.new createdAt)).push sent pushedAt
  let s := { s with channel := rest, received := s.received ++ [sent] }
  match b.needsFlush cfg checkedAt with
  | some reason => { s with
      buffers := s.buffers.insert cube b.drained
      control := .sending [⟨cube, b.rows, reason⟩] false }
  | none => { s with
      buffers := s.buffers.insert cube b
      control := .sending [] false }

def checkTimeouts (s : AsyncInsertBuffer) (checkedAt : String → Nat) : AsyncInsertBuffer :=
  { s with
    buffers := s.buffers.filterMap fun cube b =>
      some (if (b.needsFlush cfg (checkedAt cube)).isSome then b.drained else b)
    control := .sending (batches (fun cube b => b.needsFlush cfg (checkedAt cube))
      (H.iterate s.buffers)) false }

def step (s : AsyncInsertBuffer) : Action → Option AsyncInsertBuffer
  | .insert sent =>
    match s.control with
    | .ended => none
    | _ => if s.channel.length < cfg.channelCap then
        some { s with channel := s.channel ++ [sent] } else none
  | .recv createdAt pushedAt checkedAt =>
    match s.control, s.channel with
    | .waiting _, sent :: rest => some (receive cfg s sent rest createdAt pushedAt checkedAt)
    | _, _ => none
  | .tick checkedAt =>
    match s.control with
    | .waiting _ => some (checkTimeouts cfg H s checkedAt)
    | _ => none
  | .takeShutdown =>
    match s.control with
    | .waiting true => some { s with
        buffers := .empty
        control := .sending (batches (fun _ _ => some .shutdown) (H.iterate s.buffers)) true }
    | _ => none
  | .send =>
    match s.control with
    | .sending (batch :: queue) leaving =>
      if s.flushed.length - s.consumed < flushChannelCap then some { s with
        flushed := s.flushed ++ [batch]
        control := .sending queue leaving }
      else none
    | _ => none
  | .resume =>
    match s.control with
    | .sending [] false => some { s with control := .waiting false }
    | .sending [] true => some { s with
        control := .ended
        channel := []
        dropped := s.channel }
    | _ => none
  | .nextBatch =>
    if s.consumed < s.flushed.length then some { s with consumed := s.consumed + 1 } else none
  | .shutdown =>
    match s.shutdownAfter with
    | some _ => none
    | none => some { s with
        shutdownAfter := some s.accepted.length
        control := s.control.notify }

inductive Transition (s : AsyncInsertBuffer) : Action → AsyncInsertBuffer → Prop
  | insert (sent : Sent) (running : s.control ≠ .ended) :
      Transition s (.insert sent) { s with channel := s.channel ++ [sent] }
  | recv {notified : Bool} {sent : Sent} {rest : List Sent} (createdAt pushedAt checkedAt : Nat)
      (waits : s.control = .waiting notified) (next : s.channel = sent :: rest) :
      Transition s (.recv createdAt pushedAt checkedAt)
        (receive cfg s sent rest createdAt pushedAt checkedAt)
  | tick {notified : Bool} (checkedAt : String → Nat) (waits : s.control = .waiting notified) :
      Transition s (.tick checkedAt) (checkTimeouts cfg H s checkedAt)
  | takeShutdown (waits : s.control = .waiting true) : Transition s .takeShutdown { s with
        buffers := .empty
        control := .sending (batches (fun _ _ => some .shutdown) (H.iterate s.buffers)) true }
  | send {batch : FlushBatch} {queue : List FlushBatch} {leaving : Bool}
      (sends : s.control = .sending (batch :: queue) leaving) :
      Transition s .send { s with
        flushed := s.flushed ++ [batch]
        control := .sending queue leaving }
  | resume (sends : s.control = .sending [] false) :
      Transition s .resume { s with control := .waiting false }
  | finish (sends : s.control = .sending [] true) : Transition s .resume { s with
        control := .ended
        channel := []
        dropped := s.channel }
  | nextBatch (more : s.consumed < s.flushed.length) :
      Transition s .nextBatch { s with consumed := s.consumed + 1 }
  | shutdown (first : s.shutdownAfter = none) : Transition s .shutdown { s with
        shutdownAfter := some s.accepted.length
        control := s.control.notify }

variable {s : AsyncInsertBuffer}

variable {cfg H} in
theorem transition_of_step {t : AsyncInsertBuffer} {a : Action}
    (stepped : step cfg H s a = some t) : Transition cfg H s a t := by
  revert stepped
  -- one case a branch of the loop; a branch that does not step leaves nothing to show
  fun_cases step cfg H s a <;> intro stepped <;> cases stepped
  case case2 running => exact .insert _ running
  case case4 next waits => exact .recv _ _ _ waits next
  case case6 waits => exact .tick _ waits
  case case8 waits => exact .takeShutdown waits
  case case10 sends _ => exact .send sends
  case case13 sends => exact .resume sends
  case case14 sends => exact .finish sends
  case case16 more => exact .nextBatch more
  case case19 first => exact .shutdown first

variable (c : Control)

@[simp] theorem queue_notify : c.notify.queue = c.queue := by cases c <;> rfl

@[simp] theorem leaves_notify : c.notify.leaves = c.leaves := by cases c <;> rfl

@[simp] theorem notify_eq_ended : c.notify = .ended ↔ c = .ended := by
  cases c <;> simp [Control.notify]

def ofCube (cube : String) (rows : List Sent) : List Sent := rows.filter fun x => x.row.cubeName = cube

def rowsOf (cube : String) (batches : List FlushBatch) : List Sent :=
  batches.flatMap fun b => if b.cubeName = cube then b.rows else []

def delivered (s : AsyncInsertBuffer) (cube : String) : List Sent := rowsOf cube s.flushed

def buffered (s : AsyncInsertBuffer) (cube : String) : List Sent :=
  ((s.buffers.get? cube).map (·.rows)).getD []

variable (cube : String)

@[simp] theorem rowsOf_nil : rowsOf cube [] = [] := rfl

@[simp] theorem rowsOf_append (a b : List FlushBatch) :
    rowsOf cube (a ++ b) = rowsOf cube a ++ rowsOf cube b := flatMap_append

theorem rowsOf_cons (b : FlushBatch) (rest : List FlushBatch) :
    rowsOf cube (b :: rest) = (if b.cubeName = cube then b.rows else []) ++ rowsOf cube rest := rfl

@[simp] theorem ofCube_append (a b : List Sent) :
    ofCube cube (a ++ b) = ofCube cube a ++ ofCube cube b := filter_append ..

variable (reason : String → CubeBuffer → Option FlushReason)

theorem rowsOf_batches_cons (cube name : String)
    (b : CubeBuffer) (rest : List (String × CubeBuffer)) :
    rowsOf cube (batches reason ((name, b) :: rest)) =
      (if name = cube ∧ (reason name b).isSome then b.rows else []) ++
        rowsOf cube (batches reason rest) := by
  rw [batches, filterMap_cons]
  cases why : reason name b with
  | none =>
    by_cases empty : b.rows.isEmpty = true <;> simp [why, empty, batches]
  | some why =>
    by_cases empty : b.rows.isEmpty = true
    · simp [batches, isEmpty_iff.mp empty]
    · simp [why, empty, rowsOf_cons, batches]

theorem rowsOf_batches (cube : String)
    {entries : List (String × CubeBuffer)} (distinct : (entries.map Prod.fst).Nodup) :
    rowsOf cube (batches reason entries) =
      ((entries.lookup cube).map fun b => if (reason cube b).isSome then b.rows else []).getD [] := by
  induction entries with
  | nil => rfl
  | cons e rest ih =>
    obtain ⟨name, b⟩ := e
    rw [map_cons, nodup_cons] at distinct
    rw [rowsOf_batches_cons, ih distinct.2, OrdMap.lookup_cons_ite]
    by_cases here : name = cube
    · subst here
      have absent : rest.lookup name = none := by
        cases found : rest.lookup name with
        | none => rfl
        | some c =>
          have member := (OrdMap.mem_iff_lookup distinct.2 name c).mpr found
          exact absurd (mem_map_of_mem member) distinct.1
      simp [absent]
    · simp [here, Ne.symm here]

structure Conserved (s : AsyncInsertBuffer) : Prop where
  /-- What was received of a cube is delivered, then queued, then in its buffer. -/
  rows : ∀ cube, s.delivered cube ++ rowsOf cube s.control.queue ++ s.buffered cube =
    ofCube cube s.received
  emptied : s.control.leaves = true → s.buffers = .empty
  channel : s.control = .ended → s.channel = []
  dropped : s.control ≠ .ended → s.dropped = []
  signalled : s.control = .waiting true ∨ s.control.leaves = true → s.shutdownAfter.isSome = true
  counted : ∀ n, s.shutdownAfter = some n → n ≤ s.accepted.length
  consumed : s.consumed ≤ s.flushed.length

theorem conserved_new : Conserved new := by
  refine ⟨fun _ => rfl, ?_, ?_, fun _ => rfl, ?_, ?_, Nat.le_refl _⟩ <;> simp [new, Control.leaves]

variable {cfg H}

theorem buffered_insert (s : AsyncInsertBuffer) (name cube : String) (b : CubeBuffer) :
    ((((s.buffers.insert name b).get? cube).map (·.rows)).getD []) =
      if cube = name then b.rows else s.buffered cube := by
  rw [OrdMap.get?_insert]
  split <;> rfl

theorem rows_push (s : AsyncInsertBuffer) (sent : Sent) (createdAt pushedAt : Nat) :
    (((s.buffers.get? sent.row.cubeName).getD (.new createdAt)).push sent pushedAt).rows =
      s.buffered sent.row.cubeName ++ [sent] := by
  rw [buffered]
  cases s.buffers.get? sent.row.cubeName <;> rfl

theorem ofCube_singleton (sent : Sent) :
    ofCube cube [sent] = if sent.row.cubeName = cube then [sent] else [] := by
  simp [ofCube, filter_cons]

theorem accepted_receive {sent : Sent} {rest : List Sent} (next : s.channel = sent :: rest)
    (createdAt pushedAt checkedAt : Nat) :
    (receive cfg s sent rest createdAt pushedAt checkedAt).accepted = s.accepted := by
  simp only [receive, accepted, next]
  split <;> simp

variable (cfg) in
theorem leaves_receive (s : AsyncInsertBuffer) (sent : Sent) (rest : List Sent)
    (createdAt pushedAt checkedAt : Nat) :
    ∃ queue, (receive cfg s sent rest createdAt pushedAt checkedAt).control = .sending queue false := by
  simp only [receive]
  split <;> exact ⟨_, rfl⟩

theorem Conserved.receive (kept : Conserved s) {notified : Bool}
    (waits : s.control = .waiting notified) {sent : Sent} {rest : List Sent}
    (next : s.channel = sent :: rest) (createdAt pushedAt checkedAt : Nat) :
    Conserved (receive cfg s sent rest createdAt pushedAt checkedAt) := by
  obtain ⟨queue, sends⟩ := leaves_receive cfg s sent rest createdAt pushedAt checkedAt
  have pushed := rows_push s sent createdAt pushedAt
  refine ⟨fun cube => ?_, ?_, ?_, ?_, ?_, ?_, ?_⟩
  · have before := kept.rows cube
    rw [waits] at before
    simp only [Control.queue, rowsOf_nil, append_nil] at before
    simp only [AsyncInsertBuffer.receive]
    -- The row is at the end of its buffer, or in the batch that the buffer has become.
    split <;>
    · simp only [delivered, buffered, Control.queue, rowsOf_cons, rowsOf_nil, ofCube_append,
        ofCube_singleton, buffered_insert, CubeBuffer.drained, pushed, ← before]
      by_cases here : cube = sent.row.cubeName
      · subst here
        simp
      · simp [here, Ne.symm here]
  · simp [sends, Control.leaves]
  · simp [sends]
  · intro _
    have before := kept.dropped (by simp [waits])
    simp only [AsyncInsertBuffer.receive]
    split <;> exact before
  · simp [sends, Control.leaves]
  · intro n called
    rw [accepted_receive next]
    refine kept.counted n ?_
    simp only [AsyncInsertBuffer.receive] at called
    split at called <;> exact called
  · simp only [AsyncInsertBuffer.receive]
    split <;> exact kept.consumed

theorem Conserved.checkTimeouts (kept : Conserved s) {notified : Bool}
    (waits : s.control = .waiting notified) (checkedAt : String → Nat) :
    Conserved (checkTimeouts cfg H s checkedAt) := by
  refine ⟨fun cube => ?_, ?_, ?_, fun _ => kept.dropped (by simp [waits]), ?_, kept.counted,
    kept.consumed⟩
  · have before := kept.rows cube
    rw [waits] at before
    simp only [Control.queue, rowsOf_nil, append_nil, buffered] at before
    simp only [AsyncInsertBuffer.checkTimeouts, delivered, buffered, Control.queue,
      rowsOf_batches _ _ (H.nodup_keys _), H.lookup_iterate, OrdMap.get?_filterMap] at before ⊢
    rw [← before]
    cases s.buffers.get? cube with
    | none => simp
    | some b =>
      by_cases flushes : (b.needsFlush cfg (checkedAt cube)).isSome = true <;>
        simp [flushes, CubeBuffer.drained]
  · simp [AsyncInsertBuffer.checkTimeouts, Control.leaves]
  · simp [AsyncInsertBuffer.checkTimeouts]
  · simp [AsyncInsertBuffer.checkTimeouts, Control.leaves]

theorem Conserved.leave (kept : Conserved s) (waits : s.control = .waiting true) :
    Conserved { s with
      buffers := .empty
      control := .sending (batches (fun _ _ => some .shutdown) (H.iterate s.buffers)) true } := by
  refine ⟨fun cube => ?_, fun _ => rfl, ?_, fun _ => kept.dropped (by simp [waits]),
    fun _ => kept.signalled (.inl waits), kept.counted, kept.consumed⟩
  · have before := kept.rows cube
    rw [waits] at before
    simp only [Control.queue, rowsOf_nil, append_nil, buffered] at before
    simp only [delivered, buffered, Control.queue, rowsOf_batches _ _ (H.nodup_keys _),
      H.lookup_iterate, OrdMap.get?_empty] at before ⊢
    rw [← before]
    simp
  · simp

theorem Conserved.send (kept : Conserved s) {batch : FlushBatch} {queue : List FlushBatch}
    {leaving : Bool} (sends : s.control = .sending (batch :: queue) leaving) :
    Conserved { s with
      flushed := s.flushed ++ [batch]
      control := .sending queue leaving } := by
  refine ⟨fun cube => ?_, fun leaves => kept.emptied (by rw [sends]; exact leaves), ?_,
    fun _ => kept.dropped (by simp [sends]), fun leaves => kept.signalled ?_, kept.counted, ?_⟩
  · have before := kept.rows cube
    rw [sends] at before
    simp only [delivered, Control.queue, rowsOf_cons, buffered] at before ⊢
    rw [rowsOf_append, rowsOf_cons, rowsOf_nil, append_nil, append_assoc _ _ (rowsOf _ _)]
    exact before
  · simp
  · rw [sends]
    exact .inr (leaves.resolve_left (by simp))
  · have before := kept.consumed
    simp only [length_append]
    omega

theorem Conserved.finish (kept : Conserved s) (sends : s.control = .sending [] true) :
    Conserved { s with
      control := .ended
      channel := []
      dropped := s.channel } := by
  have before := kept.rows
  have none := kept.dropped (by simp [sends])
  rw [sends] at before
  refine ⟨before, fun _ => kept.emptied (by rw [sends]; rfl), fun _ => rfl, by simp,
    fun _ => kept.signalled (.inr (by rw [sends]; rfl)), fun n called => ?_, kept.consumed⟩
  have counted := kept.counted n called
  simp only [accepted, none, append_nil] at counted ⊢
  exact counted

theorem conserved_step (s : AsyncInsertBuffer) (a : Action) (t : AsyncInsertBuffer) (kept : Conserved s)
    (stepped : step cfg H s a = some t) : Conserved t := by
  cases transition_of_step stepped with
  | insert sent running =>
    refine ⟨kept.rows, kept.emptied, fun ended => absurd ended running, kept.dropped,
      kept.signalled, fun n called => ?_, kept.consumed⟩
    have before := kept.counted n called
    simp only [accepted, length_append] at before ⊢
    omega
  | recv createdAt pushedAt checkedAt waits next =>
    exact kept.receive waits next createdAt pushedAt checkedAt
  | tick checkedAt waits => exact kept.checkTimeouts waits checkedAt
  | takeShutdown waits => exact kept.leave waits
  | send sends => exact kept.send sends
  | resume sends =>
    have before := kept.rows
    rw [sends] at before
    exact ⟨before, by simp [Control.leaves], by simp, fun _ => kept.dropped (by simp [sends]),
      by simp [Control.leaves], kept.counted, kept.consumed⟩
  | finish sends => exact kept.finish sends
  | nextBatch more =>
    exact ⟨kept.rows, kept.emptied, kept.channel, kept.dropped, kept.signalled, kept.counted, more⟩
  | shutdown first =>
    refine ⟨fun cube => ?_, ?_, ?_, ?_, fun _ => rfl, ?_, kept.consumed⟩
    · rw [queue_notify]
      exact kept.rows cube
    · rw [leaves_notify]
      exact kept.emptied
    · rw [notify_eq_ended]
      exact kept.channel
    · rw [Ne, notify_eq_ended]
      exact kept.dropped
    · intro n called
      cases called
      exact Nat.le_refl _

variable (cfg H)

def Action.internal : Action → Bool
  | .insert _ | .shutdown => false
  | _ => true

def Reaches (s t : AsyncInsertBuffer) : Prop :=
  ∃ acts : List Action, (∀ a ∈ acts, a.internal = true) ∧ Run.exec (step cfg H) s acts = some t

def due (s : AsyncInsertBuffer) : List Sent :=
  match s.shutdownAfter with
  | none => s.accepted
  | some n => s.accepted.take n

/-- The rows of a cube are delivered in order, each once. -/
structure Delivers (s : AsyncInsertBuffer) : Prop where
  inOrder : ∀ cube, s.delivered cube <+: ofCube cube s.accepted
  complete : ∃ t, Reaches cfg H s t ∧ ∀ cube, ofCube cube s.due <+: t.delivered cube

/-- At the signal the task has received what was accepted. -/
def ReceivedFirst (s : AsyncInsertBuffer) : Action → Prop
  | .takeShutdown => ∀ n, s.shutdownAfter = some n → n ≤ s.received.length
  | _ => True

variable {cfg H}

theorem Reaches.refl (s : AsyncInsertBuffer) : Reaches cfg H s s := ⟨[], by simp, rfl⟩

variable {s t : AsyncInsertBuffer}

theorem Reaches.trans {u : AsyncInsertBuffer} (first : Reaches cfg H s t)
    (second : Reaches cfg H t u) : Reaches cfg H s u := by
  obtain ⟨acts, internal, ran⟩ := first
  obtain ⟨more, internalMore, ranMore⟩ := second
  refine ⟨acts ++ more, ?_, ?_⟩
  · intro a member
    rcases mem_append.mp member with old | new
    · exact internal a old
    · exact internalMore a new
  · rw [Run.exec_append, ran, Option.bind_some, ranMore]

variable {a : Action}

theorem Reaches.of_step (internal : a.internal = true)
    (stepped : step cfg H s a = some t) : Reaches cfg H s t :=
  ⟨[a], by simpa using internal, by simp [Run.exec, stepped]⟩

theorem Reaches.conserved (reaches : Reaches cfg H s t) (kept : Conserved s) : Conserved t := by
  obtain ⟨acts, -, ran⟩ := reaches
  exact Run.everyState_of_step conserved_step acts s kept acts t (prefix_refl _) ran

variable (cfg H)

theorem reaches_consumed (s : AsyncInsertBuffer) (kept : s.consumed ≤ s.flushed.length) :
    Reaches cfg H s { s with consumed := s.flushed.length } := by
  generalize open_ : s.flushed.length - s.consumed = left
  induction left generalizing s with
  | zero =>
    have all : s.consumed = s.flushed.length := by omega
    rw [← all]
    exact .refl s
  | succ left ih =>
    have more : s.consumed < s.flushed.length := by omega
    have taken : step cfg H s .nextBatch = some { s with consumed := s.consumed + 1 } := by
      simp [step, more]
    refine (Reaches.of_step rfl taken).trans (ih { s with consumed := s.consumed + 1 } more ?_)
    change s.flushed.length - (s.consumed + 1) = left
    omega

theorem reaches_sent (queue : List FlushBatch) {leaving : Bool}
    (sends : s.control = .sending queue leaving) (kept : s.consumed ≤ s.flushed.length) :
    ∃ consumed, Reaches cfg H s { s with
      control := .sending [] leaving
      flushed := s.flushed ++ queue
      consumed := consumed } := by
  induction queue generalizing s with
  | nil =>
    refine ⟨s.consumed, ?_⟩
    rw [← sends, append_nil]
    exact .refl s
  | cons batch queue ih =>
    have sent : step cfg H { s with consumed := s.flushed.length } .send = some { s with
        consumed := s.flushed.length
        flushed := s.flushed ++ [batch]
        control := .sending queue leaving } := by
      simp [step, sends, flushChannelCap]
    obtain ⟨consumed, rest⟩ := ih (s := { s with
      consumed := s.flushed.length
      flushed := s.flushed ++ [batch]
      control := .sending queue leaving }) rfl (by simp)
    refine ⟨consumed, (reaches_consumed cfg H s kept).trans ((Reaches.of_step rfl sent).trans ?_)⟩
    simpa using rest

variable (kept : Conserved s)

include kept

theorem reaches_idle (stays : s.control.leaves = false) :
    ∃ t, Reaches cfg H s t ∧ t.control = .sending [] false ∧ t.accepted = s.accepted := by
  cases control : s.control with
  | waiting notified =>
    have ticked : step cfg H s (.tick fun _ => 0) = some (checkTimeouts cfg H s fun _ => 0) := by
      simp only [step, control]
    have toTicked := Reaches.of_step rfl ticked
    obtain ⟨consumed, toSent⟩ := reaches_sent cfg H _ rfl (toTicked.conserved kept).consumed
    exact ⟨_, toTicked.trans toSent, rfl, rfl⟩
  | sending queue leaving =>
    rw [control] at stays
    cases stays
    obtain ⟨consumed, toSent⟩ := reaches_sent cfg H queue control kept.consumed
    exact ⟨_, toSent, rfl, rfl⟩
  | ended => simp [control, Control.leaves] at stays

theorem reaches_received (sends : s.control = .sending [] false) :
    ∃ t, Reaches cfg H s t ∧ t.control = .sending [] false ∧ t.channel = [] ∧
      t.accepted = s.accepted ∧ t.shutdownAfter = s.shutdownAfter := by
  generalize rows : s.channel = channel
  induction channel generalizing s with
  | nil => exact ⟨s, .refl s, sends, rows, rfl, rfl⟩
  | cons sent rest ih =>
    have waits : step cfg H s .resume = some { s with control := .waiting false } := by
      simp [step, sends]
    have received : step cfg H { s with control := .waiting false } (.recv 0 0 0) =
        some (receive cfg { s with control := .waiting false } sent rest 0 0 0) := by
      simp [step, rows]
    obtain ⟨queue, sendsNext⟩ := leaves_receive cfg { s with control := .waiting false } sent
      rest 0 0 0
    have toReceived := (Reaches.of_step rfl waits).trans (Reaches.of_step rfl received)
    obtain ⟨consumed, toSent⟩ := reaches_sent cfg H queue sendsNext (toReceived.conserved kept).consumed
    have toSent := toReceived.trans toSent
    obtain ⟨t, toEnd, sends, empty, accepted, called⟩ := ih (toSent.conserved kept) rfl (by
      simp only [receive]
      split <;> rfl)
    refine ⟨t, toSent.trans toEnd, sends, empty, accepted.trans ?_, called.trans ?_⟩
    · exact accepted_receive (s := { s with control := .waiting false }) rows 0 0 0
    · simp only [receive]
      split <;> rfl

omit kept

def lateEnough (s : AsyncInsertBuffer) (cube : String) : Nat :=
  ((s.buffers.get? cube).map (·.lastInsert)).getD 0 + cfg.flushInterval

theorem needsFlush_late (b : CubeBuffer) (filled : b.rows.isEmpty = false) :
    (b.needsFlush cfg (b.lastInsert + cfg.flushInterval)).isSome = true := by
  unfold CubeBuffer.needsFlush
  split
  · rfl
  · split
    · rfl
    · rw [if_pos ⟨by omega, filled⟩]
      rfl

theorem buffered_checkTimeouts_late (s : AsyncInsertBuffer) (cube : String) :
    (checkTimeouts cfg H s (lateEnough cfg s)).buffered cube = [] := by
  simp only [checkTimeouts, buffered, OrdMap.get?_filterMap, lateEnough]
  rcases Option.eq_none_or_eq_some (s.buffers.get? cube) with held | ⟨b, held⟩
  · simp [held]
  · simp only [held, Option.map_some, Option.getD_some, Option.bind_some]
    cases filled : b.rows.isEmpty with
    | true =>
      have empty := isEmpty_iff.mp filled
      by_cases flushes : (b.needsFlush cfg (b.lastInsert + cfg.flushInterval)).isSome = true <;>
        simp [flushes, CubeBuffer.drained, empty]
    | false => simp [needsFlush_late cfg b filled, CubeBuffer.drained]

include kept

theorem Conserved.delivered_eq (idle : s.control.queue = []) {cube : String}
    (flushed : s.buffered cube = []) : s.delivered cube = ofCube cube s.received := by
  have rows := kept.rows cube
  rw [idle, flushed, rowsOf_nil, append_nil, append_nil] at rows
  exact rows

theorem reaches_delivered (sends : s.control = .sending [] false) :
    ∃ t, Reaches cfg H s t ∧ ∀ cube, t.delivered cube = ofCube cube s.accepted := by
  obtain ⟨t, toReceived, sends, empty, accepted, -⟩ := reaches_received cfg H kept sends
  have waits : step cfg H t .resume = some { t with control := .waiting false } := by
    simp [step, sends]
  let u := { t with control := .waiting false }
  have ticked : step cfg H u (.tick (lateEnough cfg u)) =
      some (checkTimeouts cfg H u (lateEnough cfg u)) := rfl
  have toTicked :=
    toReceived.trans ((Reaches.of_step rfl waits).trans (Reaches.of_step rfl ticked))
  obtain ⟨consumed, toSent⟩ := reaches_sent cfg H _ rfl (toTicked.conserved kept).consumed
  have reached := toTicked.trans toSent
  refine ⟨_, reached, fun cube => ?_⟩
  have none := (toReceived.conserved kept).dropped (by simp [sends])
  have all : t.received = s.accepted := by
    rw [← accepted, AsyncInsertBuffer.accepted, empty, none, append_nil, append_nil]
  rw [← all]
  exact (reached.conserved kept).delivered_eq rfl (buffered_checkTimeouts_late cfg H u cube)

theorem reaches_delivered_received (leaves : s.control.leaves = true) :
    ∃ t, Reaches cfg H s t ∧ ∀ cube, t.delivered cube = ofCube cube s.received := by
  have empty : ∀ cube, s.buffered cube = [] := by
    intro cube
    rw [buffered, kept.emptied leaves]
    rfl
  cases control : s.control with
  | waiting notified => simp [control, Control.leaves] at leaves
  | ended => exact ⟨s, .refl s, fun cube => kept.delivered_eq (by rw [control]; rfl) (empty cube)⟩
  | sending queue leaving =>
    obtain ⟨consumed, reached⟩ := reaches_sent cfg H queue control kept.consumed
    exact ⟨_, reached, fun cube => (reached.conserved kept).delivered_eq rfl (empty cube)⟩

omit kept

def LeavesNothing (s : AsyncInsertBuffer) : Prop :=
  s.control.leaves = true → ∀ n, s.shutdownAfter = some n → n ≤ s.received.length

variable {cfg H}

theorem received_step_of_leaves (leaves : s.control.leaves = true)
    (stepped : step cfg H s a = some t) : t.control.leaves = true ∧ t.received = s.received := by
  cases transition_of_step stepped with
  | insert sent running => exact ⟨leaves, rfl⟩
  | recv createdAt pushedAt checkedAt waits next => simp [waits, Control.leaves] at leaves
  | tick checkedAt waits => simp [waits, Control.leaves] at leaves
  | takeShutdown waits => exact ⟨rfl, rfl⟩
  | send sends =>
    rw [sends] at leaves
    exact ⟨leaves, rfl⟩
  | resume sends => simp [sends, Control.leaves] at leaves
  | finish sends => exact ⟨rfl, rfl⟩
  | nextBatch more => exact ⟨leaves, rfl⟩
  | shutdown first =>
    rw [leaves_notify]
    exact ⟨leaves, rfl⟩

theorem Reaches.received_of_leaves (reaches : Reaches cfg H s t)
    (leaves : s.control.leaves = true) : t.received = s.received := by
  obtain ⟨acts, -, ran⟩ := reaches
  have every : Run.EveryState (step cfg H)
      (fun u => u.control.leaves = true ∧ u.received = s.received) s acts := by
    refine Run.everyState_of_step ?_ acts s ⟨leaves, rfl⟩
    intro u a v before stepped
    have after := received_step_of_leaves before.1 stepped
    exact ⟨after.1, after.2.trans before.2⟩
  exact (every acts t (prefix_refl _) ran).2

include kept

theorem Conserved.delivered_within_received (cube : String) :
    s.delivered cube <+: ofCube cube s.received := by
  rw [← kept.rows cube, append_assoc]
  exact prefix_append _ _

theorem due_of_lt {n : Nat} (called : s.shutdownAfter = some n)
    (short : s.received.length < n) : ∃ x more, s.due = s.received ++ x :: more := by
  have counted := kept.counted n called
  rw [due, called]
  simp only [accepted, append_assoc, length_append] at counted ⊢
  rw [take_append, take_of_length_le (Nat.le_of_lt short)]
  cases left : (s.channel ++ s.dropped).take (n - s.received.length) with
  | nil =>
    have none := congrArg length left
    simp only [length_take, length_append, length_nil] at none
    omega
  | cons x more => exact ⟨x, more, rfl⟩

theorem leavesNothing_of_delivers (delivers : Delivers cfg H s) : LeavesNothing s := by
  intro leaves n called
  obtain ⟨t, reaches, complete⟩ := delivers.complete
  by_contra short
  obtain ⟨x, more, due⟩ := due_of_lt kept called (Nat.lt_of_not_le short)
  -- All rows of the cube of `x` that will ever be delivered have been received.
  have most := (reaches.conserved kept).delivered_within_received x.row.cubeName
  rw [reaches.received_of_leaves leaves] at most
  have wanted := complete x.row.cubeName
  rw [due] at wanted
  have lengths := (wanted.trans most).length_le
  simp [ofCube] at lengths

omit kept

theorem due_prefix_accepted (s : AsyncInsertBuffer) : s.due <+: s.accepted := by
  unfold due
  split
  · exact prefix_refl _
  · exact List.take_prefix _ _

theorem due_prefix_received {n : Nat} (called : s.shutdownAfter = some n)
    (enough : n ≤ s.received.length) : s.due <+: s.received := by
  rw [due, called]
  simp only [accepted, append_assoc]
  rw [take_append_of_le_length enough]
  exact List.take_prefix _ _

include kept

theorem delivers_of_leavesNothing (nothing : LeavesNothing s) : Delivers cfg H s := by
  refine ⟨fun cube => (kept.delivered_within_received cube).trans ?_, ?_⟩
  · rw [accepted, append_assoc, ofCube_append]
    exact prefix_append _ _
  · cases leaves : s.control.leaves with
    | true =>
      obtain ⟨n, called⟩ := Option.isSome_iff_exists.mp (kept.signalled (.inr leaves))
      obtain ⟨t, reaches, all⟩ := reaches_delivered_received cfg H kept leaves
      refine ⟨t, reaches, fun cube => ?_⟩
      rw [all cube]
      exact (due_prefix_received called (nothing leaves n called)).filter _
    | false =>
      obtain ⟨u, toIdle, sends, accepted⟩ := reaches_idle cfg H kept leaves
      obtain ⟨t, reaches, all⟩ := reaches_delivered cfg H (toIdle.conserved kept) sends
      refine ⟨t, toIdle.trans reaches, fun cube => ?_⟩
      rw [all cube, accepted]
      exact (due_prefix_accepted s).filter _

theorem delivers_iff_leavesNothing : Delivers cfg H s ↔ LeavesNothing s :=
  ⟨leavesNothing_of_delivers kept, delivers_of_leavesNothing kept⟩

theorem leavesNothing_step (nothing : LeavesNothing s) (stepped : step cfg H s a = some t) :
    LeavesNothing t ↔ ReceivedFirst s a := by
  cases transition_of_step stepped with
  | takeShutdown waits => exact ⟨fun after => after rfl, fun first _ => first⟩
  | insert sent running => exact iff_of_true nothing trivial
  | recv createdAt pushedAt checkedAt waits next =>
    obtain ⟨queue, sends⟩ := leaves_receive cfg s _ _ createdAt pushedAt checkedAt
    refine iff_of_true (fun leaves => ?_) trivial
    rw [sends] at leaves
    cases leaves
  | tick checkedAt waits => exact iff_of_true (fun leaves => nomatch leaves) trivial
  | send sends => exact iff_of_true (fun leaves => nothing (by rw [sends]; exact leaves)) trivial
  | resume sends => exact iff_of_true (fun leaves => nomatch leaves) trivial
  | finish sends => exact iff_of_true (fun _ => nothing (by rw [sends]; rfl)) trivial
  | nextBatch more => exact iff_of_true nothing trivial
  | shutdown first =>
    -- Without a call of `shutdown` the task has not left.
    refine iff_of_true (fun leaves => ?_) trivial
    rw [leaves_notify] at leaves
    have called := kept.signalled (.inr leaves)
    rw [first] at called
    cases called

omit kept

theorem delivers_new : Delivers cfg H new :=
  delivers_of_leavesNothing conserved_new fun leaves => nomatch leaves

/-- Exactly if the signal never overtakes an accepted row. -/
theorem delivers_iff_receivedFirst (cfg : AsyncInsertConfig) (H : HashIteration String CubeBuffer)
    (acts : List Action) :
    Run.EveryState (step cfg H) (Delivers cfg H) new acts ↔
      Run.EveryStep (step cfg H) ReceivedFirst new acts := by
  refine Run.everyState_iff_everyStep (G := fun _ _ => True) Conserved
    (fun s a t kept _ stepped => conserved_step s a t kept stepped) ?_ acts new conserved_new
    delivers_new (Run.everyStep_of_forall (fun _ _ => trivial) new acts)
  intro s a t kept _ delivers stepped
  rw [delivers_iff_leavesNothing (conserved_step s a t kept stepped)]
  exact leavesNothing_step kept (leavesNothing_of_delivers kept delivers) stepped

/-- Rows are delivered in the order of their acceptance and none twice, in every interleaving. -/
theorem delivers_in_order (cfg : AsyncInsertConfig) (H : HashIteration String CubeBuffer)
    (acts : List Action) :
    Run.EveryState (step cfg H) (fun s => ∀ cube, s.delivered cube <+: ofCube cube s.accepted) new acts := by
  refine (Run.everyState_of_step conserved_step acts new conserved_new).imp fun s kept cube => ?_
  refine (kept.delivered_within_received cube).trans ?_
  simp only [ofCube, accepted, filter_append, append_assoc]
  exact List.prefix_append _ _

theorem accepted_row_dropped :
    let row : Sent := ⟨0, "events", .empty⟩
    ∃ s, Run.exec (step .default .ascending) new
        [.resume, .insert row, .shutdown, .takeShutdown, .resume] = some s ∧
      s.due = [row] ∧ s.control = .ended ∧ (∀ cube, s.delivered cube = []) ∧
      ¬ Delivers .default .ascending s := by
  intro row
  let final : AsyncInsertBuffer := ⟨[], .empty, .ended, [], 0, [], [row], some 1⟩
  have ran : Run.exec (step .default .ascending) new
      [.resume, .insert row, .shutdown, .takeShutdown, .resume] = some final := rfl
  refine ⟨final, ran, rfl, rfl, fun _ => rfl, ?_⟩
  intro delivers
  have kept : Conserved final :=
    Run.everyState_of_step conserved_step _ new conserved_new _ final (prefix_refl _) ran
  have received := leavesNothing_of_delivers kept delivers rfl 1 rfl
  exact absurd received (by decide)

end AsyncInsertBuffer
end WowDb.Query
