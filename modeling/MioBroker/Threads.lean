import Mathlib.Logic.Function.Basic
import MioBroker.Rust.Machine
import MioBroker.Threaded

/-!
# The threads of the reference broker

`handle_client` thread by thread: every turn is one action of one reader or writer thread, in
whatever order the scheduler picks them. The mutex is held from `lock` to `drop(b)`, a send on a
full channel waits, and `publish` sends to one subscription at a time.
-/
namespace MioBroker.Threaded

open Rust

/-- What a reader thread takes the mutex for. -/
inductive Job
  | connect (cid : Str)
  | subscribe (topics : List (Str × UInt8))
  | unsubscribe (filters : List Str)
  | publish (topic : Str) (payload : Bytes)
  /-- the end of `handle_client` -/
  | leave (cid : Str)

/-- One action of a reader thread. -/
inductive Action
  | lock (job : Job)
  /-- `b.client_ids.push(cid)` -/
  | pushId (cid : Str)
  | subscribe (filter : Str) (qos : UInt8)
  | unsubscribe (filter : Str)
  | publish (topic : Str) (payload : Bytes)
  /-- the `retain` of `publish` between two subscriptions -/
  | retain (topic : Str) (pkt : Bytes) (todo : List Subscription) (out : World.Fanout)
  | disconnectClient
  /-- `b.client_ids.retain(|c| *c != client_id)` -/
  | retainIds (cid : Str)
  /-- `drop(b)` -/
  | unlock
  /-- `tx.send(pkt).ok()` -/
  | send (pkt : Bytes)

/-- What is done between `lock` and `unlock`. -/
def Job.actions : Job → List Action
  | .connect cid => [.pushId cid]
  | .subscribe topics => topics.map fun e => .subscribe e.1 e.2
  | .unsubscribe filters => filters.map .unsubscribe
  | .publish topic payload => [.publish topic payload]
  | .leave cid => [.disconnectClient, .retainIds cid]

/-- The whole critical section. -/
def Job.program (job : Job) : List Action := .lock job :: (job.actions ++ [.unlock])

inductive Stage
  | serving
  /-- behind the loop -/
  | leaving
  | returned
  /-- unwound by a panic: what stands behind the loop is not run -/
  | panicked
  deriving DecidableEq

structure Reader where
  clientId : Str
  keepaliveS : Nat
  stage : Stage
  /-- what is left to do before the next packet is read -/
  todo : List Action
  /-- Not in the source: what it wanted the mutex for so far. -/
  asked : List Job

/-- The critical sections that are still to come. -/
def Action.jobs (todo : List Action) : List Job :=
  todo.filterMap fun a =>
    match a with
    | .lock job => some job
    | _ => none

namespace Reader

def start : Reader := ⟨.empty, 0, .serving, [], []⟩

/-- `break` -/
def leave (r : Reader) : Reader :=
  { r with stage := .leaving, todo := (Job.leave r.clientId).program }

/-- One round of the loop of `handle_client`, down to the actions of the thread. -/
def handle (r : Reader) (p : Packet) : Run Reader := do
  if p.ptype = CONNECT then
    match ← parseConnect p.body with
    | some (cid, ka) => return { r with
        clientId := cid
        keepaliveS := ka.toNat
        todo := (Job.connect cid).program ++ [.send buildConnack] }
    | none => return r.leave
  else if p.ptype = SUBSCRIBE then
    match ← parseSubscribe p.body with
    | some (pid, topics) => return { r with
        todo := (Job.subscribe topics).program ++ [.send (buildSuback pid (topics.map Prod.snd))] }
    | none => return r.leave
  else if p.ptype = UNSUBSCRIBE then
    match ← parseUnsubscribe p.body with
    | some (pid, filters) => return { r with
        todo := (Job.unsubscribe filters).program ++ [.send (buildUnsuback pid)] }
    | none => return r.leave
  else if p.ptype = PUBLISH then
    match ← parsePublish p.flags p.body with
    | some (topic, qos, pid, payload) =>
      let acks := match pid with
        | some p => if qos = 1 then [Action.send (buildPuback p)] else []
        | none => []
      return { r with todo := acks ++ (Job.publish topic payload).program }
    | none => return r.leave
  else if p.ptype = PINGREQ then return { r with todo := [.send buildPingresp] }
  else return r.leave

/-- `read_packet` and what follows from it; no packet when the stream ends or times out. -/
def round (r : Reader) (bytes : Bytes) : Run Reader := do
  match ← readPacket bytes with
  | none => return r.leave
  | some (p, _) => r.handle p

def receive (r : Reader) (bytes : Bytes) : Reader :=
  let next :=
    match r.round bytes with
    | .ok r => r
    | .error _ => { r with stage := .panicked, todo := [] }
  { next with asked := r.asked ++ Action.jobs next.todo }

end Reader

inductive Writer
  /-- in `recv` -/
  | waiting
  /-- in `write_all` -/
  | writing (pkt : Bytes)
  | ended

/-- The channel of a connection and the thread that empties it. -/
structure Line where
  tx : Channel
  writer : Writer
  /-- the packets that `write_all` was done with -/
  written : List Bytes
  /-- Not in the source: what was put into the channel so far, by `publish` or as an answer. -/
  accepted : List (Bool × Bytes)

namespace Line

def start : Line := ⟨.new, .waiting, [], []⟩

/-- A packet goes into the channel. -/
def push (l : Line) (published : Bool) (pkt : Bytes) : Line :=
  { l with
    tx := { l.tx with queue := l.tx.queue ++ [pkt] }
    accepted := l.accepted ++ [(published, pkt)] }

/-- The writer thread ends; what is still queued goes with the receiver. -/
def close (l : Line) : Line := { l with writer := .ended, tx := ⟨[], false⟩ }

end Line

/-- A critical section: who was in it, what for, and what the channels answered. -/
structure Section where
  token : Token
  job : Job
  attempts : List (Subscription × TrySend)

/-- The process, as all its threads see it. -/
structure Process where
  broker : Broker
  /-- who holds the mutex, with what was done so far -/
  lock : Option Section
  nextToken : Token
  readers : Token → Option Reader
  lines : Token → Option Line
  /-- Not in the source: the critical sections that were left, the first one first. -/
  log : List Section

/-- Whose turn it is, with the answers of the operating system. -/
inductive Turn
  /-- `main` starts a thread, whose `try_clone` succeeds or not -/
  | accept (cloned : Bool)
  /-- a reader thread reads a packet, or returns from `handle_client` -/
  | read (t : Token) (bytes : Bytes)
  /-- a reader thread does the next thing it has to do -/
  | act (t : Token)
  /-- a writer thread takes a packet from its channel -/
  | take (t : Token)
  /-- its `write_all` returns -/
  | wrote (t : Token) (ok : Bool)
  /-- it finds that nobody can send to it any more -/
  | hangUp (t : Token)

/-- What one `try_send` adds. -/
def World.Fanout.count (out : World.Fanout) (s : Subscription) : TrySend → World.Fanout
  | .ok => { out with kept := out.kept ++ [s], delivered := out.delivered + 1 }
  | .full => { out with kept := out.kept ++ [s], dropped := out.dropped + 1 }
  | .disconnected => { out with dead := out.dead + 1 }

namespace Process

/-- `main` at its start. -/
def new : Process := ⟨.new, none, 1, fun _ => none, fun _ => none, []⟩

def setReader (p : Process) (t : Token) (r : Reader) : Process :=
  { p with readers := Function.update p.readers t (some r) }

def setLine (p : Process) (t : Token) (l : Line) : Process :=
  { p with lines := Function.update p.lines t (some l) }

/-- `s.tx.try_send(..)` in the critical section that is open. -/
def trySend (p : Process) (tx : Token) (pkt : Bytes) : Process × TrySend :=
  match p.lines tx with
  | some l =>
    match l.tx.trySend pkt with
    | (_, .ok) => (p.setLine tx (l.push true pkt), .ok)
    | (_, result) => (p, result)
  | none => (p, .disconnected)

/-- Not in the source: the answer is noted in the open critical section. -/
def note (p : Process) (s : Subscription) (result : TrySend) : Process :=
  { p with lock := p.lock.map fun sec => { sec with attempts := sec.attempts ++ [(s, result)] } }

/-- The next action of a reader thread; `error` while it has to wait. -/
def act (p : Process) (t : Token) (r : Reader) (rest : List Action) : Action → Except Unit Process
  | .lock job =>
    match p.lock with
    | none => .ok ({ p with lock := some ⟨t, job, []⟩ }.setReader t { r with todo := rest })
    | some _ => .error ()
  | .pushId cid =>
    let broker := { p.broker with clientIds := p.broker.clientIds ++ [cid] }
    .ok ({ p with broker }.setReader t { r with todo := rest })
  | .subscribe filter qos =>
    .ok ({ p with broker := p.broker.subscribe filter qos t t }.setReader t { r with todo := rest })
  | .unsubscribe filter =>
    .ok ({ p with broker := p.broker.unsubscribe filter t }.setReader t { r with todo := rest })
  | .publish topic payload =>
    let pkt := buildForward topic.bytes payload
    .ok (p.setReader t { r with todo := .retain topic pkt p.broker.subs ⟨[], 0, 0, 0⟩ :: rest })
  | .retain _ _ [] out =>
    let broker := { p.broker with
      subs := out.kept
      drops := p.broker.drops + out.dropped
      deadSubs := p.broker.deadSubs + out.dead }
    .ok ({ p with broker }.setReader t { r with todo := rest })
  | .retain topic pkt (s :: todo) out =>
    if topicMatches s.filter topic then
      let (p, result) := p.trySend s.tx pkt
      .ok ((p.note s result).setReader t
        { r with todo := .retain topic pkt todo (out.count s result) :: rest })
    else
      let out := { out with kept := out.kept ++ [s] }
      .ok (p.setReader t { r with todo := .retain topic pkt todo out :: rest })
  | .disconnectClient =>
    .ok ({ p with broker := p.broker.disconnectClient t }.setReader t { r with todo := rest })
  | .retainIds cid =>
    let broker := { p.broker with clientIds := p.broker.clientIds.filter fun c => c != cid }
    .ok ({ p with broker }.setReader t { r with todo := rest })
  | .unlock =>
    .ok ({ p with lock := none, log := p.log ++ p.lock.toList }.setReader t { r with todo := rest })
  | .send pkt =>
    match p.lines t with
    | some l =>
      -- without a receiver the send fails at once, and that is ignored
      if !l.tx.connected then .ok (p.setReader t { r with todo := rest })
      else if l.tx.queue.length < SUB_QUEUE_CAP then
        .ok ((p.setLine t (l.push false pkt)).setReader t { r with todo := rest })
      else .error ()
    | none => .error ()

/-- Somebody can still send to the writer thread: its reader thread, or a subscription. -/
def hasSender (p : Process) (t : Token) : Bool :=
  ((p.readers t).any fun r => r.stage == .serving || r.stage == .leaving) ||
    p.broker.subs.any fun s => s.tx == t

def step (p : Process) : Turn → Except Unit Process
  | .accept cloned =>
    let next := { p with nextToken := p.nextToken + 1 }
    -- without a second handle for its writer thread, the reader thread returns at once
    .ok (if cloned then (next.setReader p.nextToken .start).setLine p.nextToken .start else next)
  | .read t bytes =>
    match p.readers t with
    | some r =>
      match r.todo, r.stage with
      | [], .serving => .ok (p.setReader t (r.receive bytes))
      | [], .leaving => .ok (p.setReader t { r with stage := .returned })
      | _, _ => .error ()
    | none => .error ()
  | .act t =>
    match p.readers t with
    | some r =>
      match r.todo with
      | a :: rest => p.act t r rest a
      | [] => .error ()
    | none => .error ()
  | .take t =>
    match p.lines t with
    | some l =>
      match l.writer, l.tx.queue with
      | .waiting, pkt :: queue =>
        .ok (p.setLine t { l with tx := { l.tx with queue }, writer := .writing pkt })
      | _, _ => .error ()
    | none => .error ()
  | .wrote t ok =>
    match p.lines t with
    | some l =>
      match l.writer with
      | .writing pkt =>
        .ok (p.setLine t
          (if ok then { l with writer := .waiting, written := l.written ++ [pkt] } else l.close))
      | _ => .error ()
    | none => .error ()
  | .hangUp t =>
    match p.lines t with
    | some l =>
      match l.writer, l.tx.queue with
      | .waiting, [] => if p.hasSender t then .error () else .ok (p.setLine t l.close)
      | _, _ => .error ()
    | none => .error ()

/-- The states the process can be in, whatever its threads are given to read and however they
are scheduled. -/
def Reachable : Process → Prop := Machine.Reaches step (fun p => p = .new) fun _ _ => True

end Process
end MioBroker.Threaded
