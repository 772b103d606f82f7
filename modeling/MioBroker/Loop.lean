import MioBroker.Rust.Machine
import MioBroker.Socket

/-!
# The event loop

`main` as a machine. A program point says where in the loop the process is; every step runs
one operation of the broker, with the answers of the operating system as its input, or moves
the clock.
-/
namespace MioBroker

open Rust

/-- The atomic operations of the event loop on the broker. -/
inductive Op
  /-- control flow only -/
  | idle
  /-- time passes, the next writes of the state file go well or not -/
  | tick (dt : Nat) (fault : Option (Option Bytes))
  /-- one accepted connection -/
  | accept (h₁ h₂ : RandomState UInt16)
  /-- `drain_client` up to the packet loop -/
  | receive (token : Token) (r : ReadResult)
  /-- one round of the packet loop -/
  | packet (token : Token) (p : Packet)
  /-- the packet counter at the end of a batch -/
  | endBatch (n : Nat)
  | remove (token : Token)
  | flush (token : Token) (ws : List WriteResult)
  | quiesce (token : Token)
  | publish (topic : Str) (payload : Bytes) (qos : UInt8) (retain : Bool)
  /-- `sys_last_publish = Instant::now()` -/
  | sysPublished
  /-- queue a retransmission and restart its timer -/
  | retry (token : Token) (pid : UInt16) (pkt : Bytes) (now : Instant)
  | save

/-- What an operation tells the control flow: the packets of a batch, or a failure. -/
abbrev Outcome := Except Unit (List Packet)

namespace Broker

/-- `add_client` and the insertion into the client map. -/
def accept (b : Broker) (h₁ h₂ : RandomState UInt16) : Broker :=
  { b with
    nextToken := b.nextToken + 1
    clients := b.clients.insert b.nextToken (.accepted b.nextToken h₁ h₂) }

/-- `drain_client` up to the packet loop. -/
def receive (b : Broker) (token : Token) (r : ReadResult) : Run (Broker × Outcome) := do
  match ← b.readChunk token r with
  | (b, .ok true) =>
    match ← b.beginBatch token with
    | (b, .ok pkts) => return (b, .ok pkts)
    | (b, .error _) => return (b, .error ())
  | (b, .ok false) => return (b, .ok [])
  | (b, .error ()) => return (b, .error ())

/-- Queue a retransmission; `error` when the queue is full of reliable traffic. -/
def retry (b : Broker) (token : Token) (pid : UInt16) (pkt : Bytes) (now : Instant) :
    Broker × Outcome :=
  match b.clients.get? token with
  | some c =>
    match c.queueQos1 pkt with
    | (c, .ok ()) =>
      ({ b with clients := b.clients.insert token (c.restartTimer pid now) }, .ok [])
    -- what was dropped to make room is gone, and the timer runs on
    | (c, .error ()) => ({ b with clients := b.clients.insert token c }, .error ())
  | none => (b, .ok [])

end Broker

def Op.run (b : Broker) : Op → Run (Broker × Outcome)
  | .idle => pure (b, .ok [])
  | .tick dt fault =>
    pure ({ b with now := b.now + dt, stateFile := { b.stateFile with fault } }, .ok [])
  | .accept h₁ h₂ => pure (b.accept h₁ h₂, .ok [])
  | .receive token r => b.receive token r
  | .packet token p => do
    match ← b.dispatch token p with
    | (b, .ok ()) => pure (b, .ok [])
    | (b, .error _) => pure (b, .error ())
  | .endBatch n => pure (b.countPackets n, .ok [])
  | .remove token => do pure (← b.removeClient token, .ok [])
  | .flush token ws => do pure (← b.flushWrites token ws, .ok [])
  | .quiesce token => pure (b.quiesce token, .ok [])
  | .publish topic payload qos retain => do
    let (b, _) ← b.publish topic payload qos retain
    pure (b, .ok [])
  | .sysPublished => pure ({ b with sysLastPublish := b.now }, .ok [])
  | .retry token pid pkt now => pure (b.retry token pid pkt now)
  | .save => pure (b.save, .ok [])

/-- One poll event; several accepts belong to one listener event. -/
inductive Event
  | listener
  | client (token : Token) (readable writable : Bool)

/-- What the single scan over all clients collects. -/
structure Scan where
  now : Instant
  pending : List Token
  dead : List Token
  retry : List (Token × UInt16 × Bytes)
  giveUp : List (Token × UInt16)

/-- Overdue entries of one client: those to retransmit, and those out of retries. -/
def Client.overdue (c : Client) (now retryAfter : Nat) : List (UInt16 × InFlight) :=
  c.inFlight.iter.filter fun e => ¬(now - e.2.sentAt < retryAfter)

/-- The packet retransmitted for an entry, with the DUP bit set on its first byte. -/
def InFlight.retransmit (pid : UInt16) (entry : InFlight) : Bytes :=
  -- after PUBREC it is PUBREL that is repeated
  let pkt := if entry.qos2 && entry.awaitPubcomp then buildPubrel pid else entry.pkt
  match pkt with
  | first :: rest => (first ||| 0x08) :: rest
  | [] => []

def Broker.scan (b : Broker) (retryAfter : Nat) : Scan where
  now := b.now
  pending := (b.clients.iter.filter fun e => !e.2.writeQueue.isEmpty).map Prod.fst
  dead := (b.clients.iter.filter fun e =>
    match e.2.keepaliveDeadline with
    | some d => b.now > d
    | none => false).map Prod.fst
  retry := b.clients.iter.flatMap fun e =>
    ((e.2.overdue b.now retryAfter).filter fun f => f.2.retries < QOS1_MAX_RETRIES).map fun f =>
      (e.1, f.1, f.2.retransmit f.1)
  giveUp := b.clients.iter.flatMap fun e =>
    ((e.2.overdue b.now retryAfter).filter fun f => f.2.retries ≥ QOS1_MAX_RETRIES).map fun f =>
      (e.1, f.1)

/-- Where in `main` the process is. -/
inductive Pc
  | poll
  | events (todo : List Event)
  /-- the `is_writable` half of an event -/
  | writable (token : Token) (writable : Bool) (todo : List Event)
  /-- the packet loop of a batch of `n`, and where to go after success and failure -/
  | packets (token : Token) (todo : List Packet) (n : Nat) (next failed : Pc)
  /-- `remove_client` is due -/
  | close (token : Token) (next : Pc)
  | flushPending (todo : List Token) (scan : Scan)
  | sweep (todo : List Token) (scan : Scan)
  | flushForwards (todo : List Token) (scan : Scan)
  | sysTopics (scan : Scan)
  | sysPublish (todo : List (Str × Bytes)) (scan : Scan)
  | reap (todo : List Token) (scan : Scan)
  | retry (todo : List (Token × UInt16 × Bytes)) (scan : Scan)
  | giveUp (todo : List (Token × UInt16))
  | save

/-- Answers of the operating system; a step looks at those it needs. -/
structure Os where
  events : List Event
  accept : Option (RandomState UInt16 × RandomState UInt16)
  read : ReadResult
  writes : List WriteResult

inductive Io
  | tick (dt : Nat) (fault : Option (Option Bytes))
  | go (os : Os)

structure Loop where
  broker : Broker
  pc : Pc
  /-- `qos1_retry_after()` -/
  retryAfter : Nat

namespace Loop

/-- Where `drain_client` leads: into the packet loop, or to `remove_client`. -/
def afterReceive (token : Token) (next failed : Pc) : Outcome → Pc
  | .ok pkts => .packets token pkts pkts.length next failed
  | .error () => failed

/-- The next operation, and the program point behind it. -/
def next (s : Loop) (os : Os) : Op × (Broker → Outcome → Pc) :=
  match s.pc with
  | .poll => (.idle, fun _ _ => .events os.events)
  | .events [] => (.idle, fun b _ =>
      let scan := b.scan s.retryAfter
      .flushPending scan.pending scan)
  | .events (.listener :: todo) =>
    match os.accept with
    | some (h₁, h₂) => (.accept h₁ h₂, fun _ _ => .events (.listener :: todo))
    | none => (.idle, fun _ _ => .events todo)
  | .events (.client t readable writable :: todo) =>
    if readable then
      (.receive t os.read,
        fun _ out => afterReceive t (.writable t writable todo) (.close t (.events todo)) out)
    else (.idle, fun _ _ => .writable t writable todo)
  | .writable t writable todo =>
    let op : Op :=
      if writable then
        match s.broker.clients.get? t with
        | some c => if !c.writeQueue.isEmpty then .flush t os.writes else .quiesce t
        | none => .quiesce t
      else .idle
    (op, fun _ _ => .events todo)
  | .packets _ [] n next _ => (.endBatch n, fun _ _ => next)
  -- the first error ends the batch: the packets behind it are dropped
  | .packets t (p :: todo) n next failed =>
    (.packet t p, fun _ out =>
      match out with
      | .ok _ => .packets t todo n next failed
      | .error () => failed)
  | .close t next => (.remove t, fun _ _ => next)
  | .flushPending [] scan => (.idle, fun b _ => .sweep b.clients.keys scan)
  | .flushPending (t :: todo) scan =>
    (if s.broker.clients.contains t then .flush t os.writes else .idle,
      fun _ _ => .flushPending todo scan)
  | .sweep [] scan => (.idle, fun b _ =>
      .flushForwards ((b.clients.iter.filter fun e => !e.2.writeQueue.isEmpty).map Prod.fst) scan)
  -- every connection is read once more, whether the poll named it or not
  | .sweep (t :: todo) scan =>
    if s.broker.clients.contains t then
      (.receive t os.read,
        fun _ out => afterReceive t (.sweep todo scan) (.close t (.sweep todo scan)) out)
    else (.idle, fun _ _ => .sweep todo scan)
  | .flushForwards [] scan => (.idle, fun _ _ => .sysTopics scan)
  | .flushForwards (t :: todo) scan =>
    (if s.broker.clients.contains t then .flush t os.writes else .idle,
      fun _ _ => .flushForwards todo scan)
  | .sysTopics scan =>
    (.idle, fun b _ =>
      if b.now - b.sysLastPublish ≥ secs 10 then .sysPublish b.sysTopics scan
      else .reap scan.dead scan)
  | .sysPublish [] scan => (.sysPublished, fun _ _ => .reap scan.dead scan)
  | .sysPublish (e :: todo) scan => (.publish e.1 e.2 0 true, fun _ _ => .sysPublish todo scan)
  | .reap [] scan => (.idle, fun _ _ => .retry scan.retry scan)
  | .reap (t :: todo) scan => (.remove t, fun _ _ => .reap todo scan)
  | .retry [] scan => (.idle, fun _ _ => .giveUp scan.giveUp)
  | .retry ((t, pid, pkt) :: todo) scan =>
    (.retry t pid pkt scan.now, fun _ out =>
      match out with
      | .ok _ => .retry todo scan
      | .error () => .close t (.retry todo scan))
  | .giveUp [] => (.idle, fun _ _ => .save)
  -- one entry per message, so the connection may be gone already
  | .giveUp ((t, _) :: todo) =>
    (if s.broker.clients.contains t then .remove t else .idle, fun _ _ => .giveUp todo)
  | .save =>
    (if s.broker.dirty && s.broker.now - s.broker.lastSave ≥ millis 200 then .save else .idle,
      fun _ _ => .poll)

/-- The operation a step runs. -/
def op (s : Loop) : Io → Op
  | .tick dt fault => .tick dt fault
  | .go os => (s.next os).1

/-- Where in the loop an operation is run from, and what was looked up for it. -/
def Grounds (s : Loop) : Op → Prop
  | .accept _ _ => ∃ todo, s.pc = .events (.listener :: todo)
  | .receive t _ => (∃ writable todo, s.pc = .events (.client t true writable :: todo)) ∨
      ∃ todo scan, s.pc = .sweep (t :: todo) scan ∧ s.broker.clients.contains t = true
  | .packet t p => ∃ todo n next failed, s.pc = .packets t (p :: todo) n next failed
  | .remove t => (∃ next, s.pc = .close t next) ∨ (∃ todo scan, s.pc = .reap (t :: todo) scan) ∨
      ∃ pid todo, s.pc = .giveUp ((t, pid) :: todo)
  | .flush t _ => s.broker.clients.contains t = true
  | .quiesce t => ∃ todo, s.pc = .writable t true todo ∧
      ∀ c, s.broker.clients.get? t = some c → c.writeQueue = []
  | .publish topic payload qos retain => qos = 0 ∧ retain = true ∧
      ∃ todo scan, s.pc = .sysPublish ((topic, payload) :: todo) scan
  | .retry t pid pkt scanned => ∃ todo scan, s.pc = .retry ((t, pid, pkt) :: todo) scan ∧
      scanned = scan.now
  | _ => True

theorem op_grounds (s : Loop) (io : Io) : s.Grounds (s.op io) := by
  cases io with
  | tick dt fault => trivial
  | go os =>
    simp only [op]
    cases here : s.pc with
    | events todo =>
      cases todo with
      | nil => simp only [next, here, Grounds]
      | cons e todo =>
        cases e with
        | listener =>
          simp only [next, here]
          cases os.accept with
          | none => trivial
          | some states => exact ⟨todo, here⟩
        | client t readable writable =>
          cases readable with
          | false => simp [next, here, Grounds]
          | true =>
            simp only [next, here, if_true]
            exact .inl ⟨writable, todo, here⟩
    | writable t writable todo =>
      cases writable with
      | false => simp [next, here, Grounds]
      | true =>
        simp only [next, here, if_true]
        cases found : s.broker.clients.get? t with
        | none => exact ⟨todo, here, fun c there => by cases found.symm.trans there⟩
        | some c =>
          simp only
          split
          · exact (HashMap.contains_iff _ _).mpr ⟨c, found⟩
          next empty =>
            refine ⟨todo, here, fun d there => ?_⟩
            cases found.symm.trans there
            simpa using empty
    | packets t todo n next' failed =>
      cases todo with
      | nil => simp only [next, here, Grounds]
      | cons p todo =>
        simp only [next, here]
        exact ⟨todo, n, next', failed, here⟩
    | close t next' =>
      simp only [next, here]
      exact .inl ⟨next', here⟩
    | flushPending todo scan =>
      cases todo with
      | nil => simp only [next, here, Grounds]
      | cons t todo =>
        simp only [next, here]
        split
        next there => exact there
        next => trivial
    | sweep todo scan =>
      cases todo with
      | nil => simp only [next, here, Grounds]
      | cons t todo =>
        simp only [next, here]
        split
        next there => exact .inr ⟨todo, scan, here, there⟩
        next => trivial
    | flushForwards todo scan =>
      cases todo with
      | nil => simp only [next, here, Grounds]
      | cons t todo =>
        simp only [next, here]
        split
        next there => exact there
        next => trivial
    | sysPublish todo scan =>
      cases todo with
      | nil => simp only [next, here, Grounds]
      | cons e todo =>
        simp only [next, here]
        exact ⟨rfl, rfl, todo, scan, here⟩
    | reap todo scan =>
      cases todo with
      | nil => simp only [next, here, Grounds]
      | cons t todo =>
        simp only [next, here]
        exact .inr (.inl ⟨todo, scan, here⟩)
    | retry todo scan =>
      cases todo with
      | nil => simp only [next, here, Grounds]
      | cons e todo =>
        simp only [next, here]
        exact ⟨todo, scan, here, rfl⟩
    | giveUp todo =>
      cases todo with
      | nil => simp only [next, here, Grounds]
      | cons e todo =>
        simp only [next, here]
        split
        · exact .inr (.inr ⟨e.2, todo, here⟩)
        · trivial
    | save =>
      simp only [next, here]
      split <;> trivial
    | _ => simp only [next, here, Grounds]

/-- The program point behind a step. -/
def pcAfter (s : Loop) : Io → Broker → Outcome → Pc
  | .tick _ _, _, _ => s.pc
  | .go os, b, out => (s.next os).2 b out

def step (s : Loop) (io : Io) : Run Loop := do
  let (b, out) ← (s.op io).run s.broker
  pure { s with broker := b, pc := s.pcAfter io b out }

/-- The process right after startup. -/
def init (h : Hashers) (now : Instant) (file : StateFile) (retryAfter : Nat) : Loop where
  broker := (Broker.new h now file).loadState h
  pc := .poll
  retryAfter := retryAfter

/-- A poll reports every registered token at most once and no other. -/
def eventsAdmitted (b : Broker) (events : List Event) : Bool :=
  let tokens := events.filterMap fun e =>
    match e with
    | .listener => none
    | .client t _ _ => some t
  decide tokens.Nodup && tokens.all fun t => b.clients.contains t

/-- What the operating system can answer: events of registered connections, and chunks no
longer than the read buffer. -/
def admits (s : Loop) : Io → Bool
  | .tick _ _ => true
  | .go os =>
    (match s.pc with
      | .poll => eventsAdmitted s.broker os.events
      | _ => true) &&
    (match os.read with
      | .ok chunk => decide (chunk.length ≤ 65536)
      | _ => true)

/-- States of the process after startup with any state file, in any environment. -/
def Initial (s : Loop) : Prop := ∃ h now file retryAfter, s = init h now file retryAfter

def Reachable : Loop → Prop :=
  Machine.Reaches step Initial fun s io => s.admits io = true

end Loop
end MioBroker
