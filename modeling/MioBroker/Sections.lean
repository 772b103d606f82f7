import MioBroker.Turns

/-!
# The critical sections are serial

The mutex makes whole critical sections of what the threads do in turns: the broker is what they
make of it one after the other, in the order in which the mutex was taken. Each request of a
connection is one of them, and a publish tries every subscription that matches when it gets there,
once. Only the answers of the channels depend on what the other threads do meanwhile.
-/
namespace MioBroker.Threaded

open Rust

namespace TrySend

def isOk : TrySend → Bool
  | .ok => true
  | _ => false

def isFull : TrySend → Bool
  | .full => true
  | _ => false

def isDisconnected : TrySend → Bool
  | .disconnected => true
  | _ => false

end TrySend

/-- The subscriptions that `publish` keeps, given the answers in the order of its attempts. -/
def survivors (topic : Str) : List Subscription → List TrySend → List Subscription
  | [], _ => []
  | s :: subs, answers =>
    if topicMatches s.filter topic then
      match answers with
      | .disconnected :: answers => survivors topic subs answers
      | _ :: answers => s :: survivors topic subs answers
      | [] => s :: survivors topic subs []
    else s :: survivors topic subs answers

namespace Section

/-- What a whole critical section makes of the broker. -/
def apply (sec : Section) (b : Broker) : Broker :=
  match sec.job with
  | .connect cid => { b with clientIds := b.clientIds ++ [cid] }
  | .subscribe topics => topics.foldl (fun b e => b.subscribe e.1 e.2 sec.token sec.token) b
  | .unsubscribe filters => filters.foldl (fun b f => b.unsubscribe f sec.token) b
  | .publish topic _ =>
    let answers := sec.attempts.map Prod.snd
    { b with
      subs := survivors topic b.subs answers
      drops := b.drops + answers.countP TrySend.isFull
      deadSubs := b.deadSubs + answers.countP TrySend.isDisconnected }
  | .leave cid =>
    let b := b.disconnectClient sec.token
    { b with clientIds := b.clientIds.filter fun c => c != cid }

/-- It tries the subscriptions that it has to. -/
def Tries (sec : Section) (b : Broker) : Prop :=
  sec.attempts.map Prod.fst =
    match sec.job with
    | .publish topic _ => b.subs.filter fun s => topicMatches s.filter topic
    | _ => []

end Section

/-- Critical sections one after the other, from an empty broker on. -/
inductive Serial : List Section → Broker → Prop
  | nil : Serial [] .new
  | snoc {log : List Section} {sec : Section} {b : Broker} (before : Serial log b) (tries : sec.Tries b) :
    Serial (log ++ [sec]) (sec.apply b)

/-! ### Half a critical section -/

/-- What a reader thread does while it does not hold the mutex. -/
inductive Outside : List Action → Prop
  | nil : Outside []
  | send {rest : List Action} (pkt : Bytes) (more : Outside rest) : Outside (.send pkt :: rest)
  | program {rest : List Action} (job : Job) (more : Outside rest) : Outside (job.program ++ rest)

/-- The `retain` of a publish, in front of `todo`. -/
structure Retaining (topic : Str) (subs todo : List Subscription) (out : World.Fanout)
    (attempts : List (Subscription × TrySend)) (seen : List Subscription) : Prop where
  cut : subs = seen ++ todo
  tried : attempts.map Prod.fst = seen.filter fun s => topicMatches s.filter topic
  kept : out.kept = survivors topic seen (attempts.map Prod.snd)
  dropped : out.dropped = (attempts.map Prod.snd).countP TrySend.isFull
  dead : out.dead = (attempts.map Prod.snd).countP TrySend.isDisconnected

/-- A critical section that began in `start` still has the actions `todo` in front of it. -/
inductive Underway (start : Broker) (t : Token) : Job → List (Subscription × TrySend) → List Action →
    Broker → Prop
  | connect (cid : Str) : Underway start t (.connect cid) [] [.pushId cid] start
  | subscribe (topics more : List (Str × UInt8)) :
    Underway start t (.subscribe (topics ++ more)) [] (more.map fun e => .subscribe e.1 e.2)
      (topics.foldl (fun b e => b.subscribe e.1 e.2 t t) start)
  | unsubscribe (filters more : List Str) :
    Underway start t (.unsubscribe (filters ++ more)) [] (more.map .unsubscribe)
      (filters.foldl (fun b f => b.unsubscribe f t) start)
  | publish (topic : Str) (payload : Bytes) :
    Underway start t (.publish topic payload) [] [.publish topic payload] start
  | retain {topic : Str} {payload : Bytes} {todo seen : List Subscription} {out : World.Fanout}
      {attempts : List (Subscription × TrySend)}
      (retaining : Retaining topic start.subs todo out attempts seen) :
    Underway start t (.publish topic payload) attempts
      [.retain topic (buildForward topic.bytes payload) todo out] start
  | leave (cid : Str) : Underway start t (.leave cid) [] [.disconnectClient, .retainIds cid] start
  | disconnected (cid : Str) :
    Underway start t (.leave cid) [] [.retainIds cid] (start.disconnectClient t)
  | done {sec : Section} (same : sec.token = t) (tries : sec.Tries start) :
    Underway start t sec.job sec.attempts [] (sec.apply start)

theorem survivors_append {topic : Str} {subs more : List Subscription} {answers rest : List TrySend}
    (counted : answers.length = (subs.filter fun s => topicMatches s.filter topic).length) :
    survivors topic (subs ++ more) (answers ++ rest) =
      survivors topic subs answers ++ survivors topic more rest := by
  induction subs generalizing answers with
  | nil =>
    rw [List.filter_nil, List.length_nil, List.length_eq_zero_iff] at counted
    rw [counted]
    rfl
  | cons s subs ih =>
    by_cases wanted : topicMatches s.filter topic = true
    · rw [List.filter_cons, if_pos wanted, List.length_cons] at counted
      cases answers with
      | nil => cases counted
      | cons answer answers =>
        have fewer := Nat.succ.inj counted
        cases answer <;> simp [survivors, wanted, ih fewer]
    · rw [List.filter_cons, if_neg wanted] at counted
      simp [survivors, wanted, ih counted]

namespace Retaining

variable {topic : Str} {subs todo seen : List Subscription} {s : Subscription} {out : World.Fanout}
  {attempts : List (Subscription × TrySend)}

theorem start (topic : Str) (subs : List Subscription) :
    Retaining topic subs subs ⟨[], 0, 0, 0⟩ [] [] := ⟨rfl, rfl, rfl, rfl, rfl⟩

theorem counted (retaining : Retaining topic subs todo out attempts seen) :
    (attempts.map Prod.snd).length = (seen.filter fun s => topicMatches s.filter topic).length := by
  rw [← retaining.tried, List.length_map, List.length_map]

theorem skip (retaining : Retaining topic subs (s :: todo) out attempts seen)
    (unwanted : topicMatches s.filter topic = false) :
    Retaining topic subs todo { out with kept := out.kept ++ [s] } attempts (seen ++ [s]) where
  cut := by rw [retaining.cut, List.append_assoc, List.singleton_append]
  tried := by simp [retaining.tried, List.filter_append, unwanted]
  kept := by
    have split := @survivors_append topic seen [s] _ [] retaining.counted
    rw [List.append_nil] at split
    rw [split, retaining.kept]
    simp [survivors, unwanted]
  dropped := retaining.dropped
  dead := retaining.dead

theorem attempt (retaining : Retaining topic subs (s :: todo) out attempts seen)
    (wanted : topicMatches s.filter topic = true) (result : TrySend) :
    Retaining topic subs todo (out.count s result) (attempts ++ [(s, result)]) (seen ++ [s]) where
  cut := by rw [retaining.cut, List.append_assoc, List.singleton_append]
  tried := by simp [retaining.tried, List.filter_append, wanted]
  kept := by
    rw [List.map_append, survivors_append retaining.counted, ← retaining.kept]
    cases result <;> simp [World.Fanout.count, survivors, wanted]
  dropped := by
    rw [List.map_append, List.countP_append, ← retaining.dropped]
    cases result <;> simp [World.Fanout.count, TrySend.isFull]
  dead := by
    rw [List.map_append, List.countP_append, ← retaining.dead]
    cases result <;> simp [World.Fanout.count, TrySend.isDisconnected]

end Retaining

namespace Underway

variable {start b b' : Broker} {t : Token} {job : Job} {attempts : List (Subscription × TrySend)}
  {a : Action} {todo : List Action}

/-- At the end of its actions a critical section has done what it is for. -/
theorem finish (underway : Underway start t job attempts [] b) :
    Section.Tries ⟨t, job, attempts⟩ start ∧ b = Section.apply ⟨t, job, attempts⟩ start := by
  generalize none_left : ([] : List Action) = todo at underway
  cases underway with
  | subscribe topics more =>
    cases List.map_eq_nil_iff.mp none_left.symm
    rw [List.append_nil]
    exact ⟨rfl, rfl⟩
  | unsubscribe filters more =>
    cases List.map_eq_nil_iff.mp none_left.symm
    rw [List.append_nil]
    exact ⟨rfl, rfl⟩
  | done same tries =>
    cases same
    exact ⟨tries, rfl⟩
  | _ => cases none_left

/-- One action that changes the broker. -/
theorem effect (underway : Underway start t job attempts (a :: todo) b)
    (effect : a.effect t b = some b') : Underway start t job attempts todo b' := by
  generalize given : a :: todo = all at underway
  cases underway with
  | connect cid =>
    cases given
    cases effect
    exact @done start t ⟨t, .connect cid, []⟩ rfl rfl
  | subscribe topics more =>
    cases more with
    | nil => cases given
    | cons e more =>
      cases given
      cases effect
      have next := @subscribe start t (topics ++ [e]) more
      rw [List.append_assoc, List.singleton_append, List.foldl_append] at next
      exact next
  | unsubscribe filters more =>
    cases more with
    | nil => cases given
    | cons f more =>
      cases given
      cases effect
      have next := @unsubscribe start t (filters ++ [f]) more
      rw [List.append_assoc, List.singleton_append, List.foldl_append] at next
      exact next
  | publish topic payload =>
    cases given
    cases effect
  | @retain topic payload left seen out attempts retaining =>
    cases given
    cases left with
    | cons s left => cases effect
    | nil =>
      cases effect
      have whole : start.subs = seen := by rw [retaining.cut, List.append_nil]
      have tries : Section.Tries ⟨t, .publish topic payload, attempts⟩ start := by
        rw [Section.Tries, retaining.tried, whole]
      have finished := @done start t ⟨t, .publish topic payload, attempts⟩ rfl tries
      have made : Section.apply ⟨t, .publish topic payload, attempts⟩ start = { start with
          subs := out.kept
          drops := start.drops + out.dropped
          deadSubs := start.deadSubs + out.dead } := by
        rw [retaining.kept, retaining.dropped, retaining.dead, ← whole]
        rfl
      rw [made] at finished
      exact finished
  | leave cid =>
    cases given
    cases effect
    exact .disconnected cid
  | disconnected cid =>
    cases given
    cases effect
    exact @done start t ⟨t, .leave cid, []⟩ rfl rfl
  | done same tries => cases given

theorem begin_retain {topic : Str} {payload : Bytes}
    (underway : Underway start t job attempts (.publish topic payload :: todo) b) :
    Underway start t job attempts
      (.retain topic (buildForward topic.bytes payload) b.subs ⟨[], 0, 0, 0⟩ :: todo) b := by
  generalize given : Action.publish topic payload :: todo = all at underway
  cases underway with
  | publish topic payload =>
    cases given
    exact .retain (.start topic start.subs)
  | subscribe topics more => cases more <;> cases given
  | unsubscribe filters more => cases more <;> cases given
  | _ => cases given

section Retain

variable {topic : Str} {pkt : Bytes} {s : Subscription} {left : List Subscription}
  {out : World.Fanout}

/-- Only a publish goes over the subscriptions. -/
theorem retaining (underway : Underway start t job attempts (.retain topic pkt left out :: todo) b) :
    ∃ payload seen, job = .publish topic payload ∧ pkt = buildForward topic.bytes payload ∧ todo = [] ∧
      b = start ∧ Retaining topic start.subs left out attempts seen := by
  generalize given : Action.retain topic pkt left out :: todo = all at underway
  cases underway with
  | @retain topic payload left seen out attempts retaining =>
    cases given
    exact ⟨payload, seen, rfl, rfl, rfl, rfl, retaining⟩
  | subscribe topics more => cases more <;> cases given
  | unsubscribe filters more => cases more <;> cases given
  | _ => cases given

theorem attempt (underway : Underway start t job attempts (.retain topic pkt (s :: left) out :: todo) b)
    (wanted : topicMatches s.filter topic = true) (result : TrySend) :
    Underway start t job (attempts ++ [(s, result)])
      (.retain topic pkt left (out.count s result) :: todo) b := by
  obtain ⟨payload, seen, rfl, rfl, rfl, rfl, retaining⟩ := underway.retaining
  exact .retain (retaining.attempt wanted result)

theorem skip (underway : Underway start t job attempts (.retain topic pkt (s :: left) out :: todo) b)
    (unwanted : topicMatches s.filter topic = false) :
    Underway start t job attempts
      (.retain topic pkt left { out with kept := out.kept ++ [s] } :: todo) b := by
  obtain ⟨payload, seen, rfl, rfl, rfl, rfl, retaining⟩ := underway.retaining
  exact .retain (retaining.skip unwanted)

end Retain

/-- Nothing waits in a critical section, and none is begun or left in it. -/
theorem head (underway : Underway start t job attempts (a :: todo) b) :
    (∃ b', a.effect t b = some b') ∨ (∃ topic payload, a = .publish topic payload) ∨
      ∃ topic pkt s left out, a = .retain topic pkt (s :: left) out := by
  generalize given : a :: todo = all at underway
  cases underway with
  | subscribe topics more =>
    cases more with
    | nil => cases given
    | cons e more =>
      cases given
      exact .inl ⟨_, rfl⟩
  | unsubscribe filters more =>
    cases more with
    | nil => cases given
    | cons f more =>
      cases given
      exact .inl ⟨_, rfl⟩
  | publish topic payload =>
    cases given
    exact .inr (.inl ⟨_, _, rfl⟩)
  | @retain topic payload left seen out attempts retaining =>
    cases given
    cases left with
    | nil => exact .inl ⟨_, rfl⟩
    | cons s left => exact .inr (.inr ⟨_, _, _, _, _, rfl⟩)
  | done same tries => cases given
  | _ =>
    cases given
    exact .inl ⟨_, rfl⟩

end Underway

/-- The actions of a critical section that has just been entered. -/
theorem Underway.enter (b : Broker) (t : Token) (job : Job) :
    Underway b t job [] job.actions b := by
  cases job with
  | connect cid => exact .connect cid
  | subscribe topics => exact .subscribe [] topics
  | unsubscribe filters => exact .unsubscribe [] filters
  | publish topic payload => exact .publish topic payload
  | leave cid => exact .leave cid

theorem Outside.cons {a : Action} {rest : List Action} (outside : Outside (a :: rest)) :
    (∃ pkt, a = .send pkt ∧ Outside rest) ∨
      ∃ job more, a = .lock job ∧ rest = job.actions ++ .unlock :: more ∧ Outside more := by
  generalize given : a :: rest = all at outside
  cases outside with
  | nil => cases given
  | send pkt more =>
    cases given
    exact .inl ⟨pkt, rfl, more⟩
  | @program more job outside =>
    cases given
    exact .inr ⟨job, more, rfl, by simp, outside⟩

theorem Outside.single (pkt : Bytes) : Outside [.send pkt] := .send pkt .nil

namespace Reader

theorem leave_outside (r : Reader) : Outside r.leave.todo := by
  have outside := Outside.program (.leave r.clientId) .nil
  rwa [List.append_nil] at outside

/-- A thread that has handled a packet is behind its loop, or has something to do in the mutex and to
answer. -/
theorem handle_cases {r next : Reader} {p : Packet} (done : r.handle p = .ok next) :
    next = r.leave ∨ ∃ clientId keepaliveS todo,
      next = { r with clientId, keepaliveS, todo } ∧ Outside todo := by
  simp only [handle] at done
  split at done
  · obtain ⟨parsed, -, done⟩ := Run.bind_ok.mp done
    cases parsed with
    | none =>
      cases done
      exact .inl rfl
    | some q =>
      cases done
      exact .inr ⟨_, _, _, rfl, .program _ (.single _)⟩
  split at done
  · obtain ⟨parsed, -, done⟩ := Run.bind_ok.mp done
    cases parsed with
    | none =>
      cases done
      exact .inl rfl
    | some q =>
      cases done
      exact .inr ⟨_, _, _, rfl, .program _ (.single _)⟩
  split at done
  · obtain ⟨parsed, -, done⟩ := Run.bind_ok.mp done
    cases parsed with
    | none =>
      cases done
      exact .inl rfl
    | some q =>
      cases done
      exact .inr ⟨_, _, _, rfl, .program _ (.single _)⟩
  split at done
  · obtain ⟨parsed, -, done⟩ := Run.bind_ok.mp done
    cases parsed with
    | none =>
      cases done
      exact .inl rfl
    | some q =>
      obtain ⟨topic, qos, pid, payload⟩ := q
      have published := Outside.program (.publish topic payload) .nil
      rw [List.append_nil] at published
      cases done
      refine .inr ⟨_, _, _, rfl, ?_⟩
      cases pid with
      | none => exact published
      | some pid =>
        simp only
        split
        · exact .send _ published
        · exact published
  split at done
  · cases done
    exact .inr ⟨_, _, _, rfl, .single _⟩
  · cases done
    exact .inl rfl

/-- A packet read leaves the thread behind its loop, with something to do, or unwound. -/
theorem receive_cases (r : Reader) (bytes : Bytes) :
    (∃ asked, r.receive bytes = { r.leave with asked }) ∨
      (∃ clientId keepaliveS todo asked, r.receive bytes = ⟨clientId, keepaliveS, r.stage, todo, asked⟩ ∧
        Outside todo) ∨
      ∃ asked, r.receive bytes = { r with stage := .panicked, todo := [], asked } := by
  simp only [receive]
  split
  next next done =>
    obtain ⟨packet, -, done⟩ := Run.bind_ok.mp done
    cases packet with
    | none =>
      cases done
      exact .inl ⟨_, rfl⟩
    | some e =>
      rcases handle_cases done with rfl | ⟨clientId, keepaliveS, todo, rfl, outside⟩
      · exact .inl ⟨_, rfl⟩
      · exact .inr (.inl ⟨clientId, keepaliveS, todo, _, rfl, outside⟩)
  next => exact .inr (.inr ⟨_, rfl⟩)

theorem receive_outside (r : Reader) (bytes : Bytes) : Outside (r.receive bytes).todo := by
  rcases r.receive_cases bytes with ⟨asked, same⟩ | ⟨_, _, todo, _, same, outside⟩ | ⟨asked, same⟩
  · rw [same]
    exact r.leave_outside
  · rw [same]
    exact outside
  · rw [same]
    exact .nil

end Reader

/-- Where a reader thread stands that still has `todo` to do. -/
inductive Place (start : Broker) (lock : Option Section) (b : Broker) (t : Token) (todo : List Action) :
    Prop
  | outside (free : ∀ sec, lock = some sec → sec.token ≠ t) (outside : Outside todo)
  | inside {sec : Section} {crit rest : List Action} (held : lock = some sec) (token : sec.token = t)
      (cut : todo = crit ++ .unlock :: rest) (outside : Outside rest)
      (underway : Underway start t sec.job sec.attempts crit b)

/-- Others are outside while a thread holds the mutex. -/
theorem Place.others {start : Broker} {sec : Section} {lock : Option Section} {b : Broker} {u : Token}
    {todo : List Action} (place : Place start lock b u todo) (locked : lock = some sec)
    (other : sec.token ≠ u) : Outside todo := by
  cases place with
  | outside free outside => exact outside
  | inside held token =>
    cases held.symm.trans locked
    exact absurd token other

namespace Process

/-- The broker is what whole critical sections made of it, and then half of the one that is open. -/
structure Coherent (p : Process) (start : Broker) : Prop where
  serial : Serial p.log start
  free : p.lock = none → p.broker = start
  places : ∀ t r, p.readers t = some r → Place start p.lock p.broker t r.todo
  held : ∀ sec, p.lock = some sec → ∃ r, p.readers sec.token = some r

/-- What a connection has had the mutex for, the open critical section included. -/
def served (p : Process) (t : Token) : List Job :=
  ((p.log ++ p.lock.toList).filter fun sec => sec.token == t).map Section.job

/-- Every request of a connection is a critical section that is over, open or to come. -/
structure Answered (p : Process) : Prop where
  given : ∀ t, p.nextToken ≤ t → p.readers t = none ∧ p.served t = []
  asked : ∀ t r, p.readers t = some r → p.served t ++ Action.jobs r.todo = r.asked

section Readers

variable (p : Process) (t u : Token) (r : Reader) (l : Line)

@[simp] theorem setReader_self : (p.setReader t r).readers t = some r := Function.update_self _ _ _

theorem setReader_other (other : u ≠ t) : (p.setReader t r).readers u = p.readers u :=
  Function.update_of_ne other _ _

@[simp] theorem setLine_self : (p.setLine t l).lines t = some l := Function.update_self _ _ _

theorem setLine_other (other : u ≠ t) : (p.setLine t l).lines u = p.lines u :=
  Function.update_of_ne other _ _

end Readers

variable {p p' q : Process} {start start' : Broker} {t : Token} {r : Reader} {turn : Turn}

/-- The others do not see more of a turn than that the mutex is not theirs. -/
theorem Coherent.after (coherent : p.Coherent start) (readers : p'.readers = p.readers)
    (serial : Serial p'.log start') (free : p'.lock = none → p'.broker = start')
    (mine : Place start' p'.lock p'.broker t r.todo)
    (others : ∀ u todo, u ≠ t → Place start p.lock p.broker u todo → Place start' p'.lock p'.broker u todo)
    (held : ∀ sec, p'.lock = some sec → sec.token = t ∨ p.lock = some sec) :
    (p'.setReader t r).Coherent start' where
  serial := serial
  free := free
  places u s there := by
    by_cases same : u = t
    · rw [same, setReader_self] at there
      cases there
      rw [same]
      exact mine
    · rw [setReader_other _ _ _ _ same, readers] at there
      exact others u s.todo same (coherent.places u s there)
  held sec locked := by
    by_cases same : sec.token = t
    · exact ⟨r, same ▸ setReader_self _ _ _⟩
    · rw [setReader_other _ _ _ _ same, readers]
      exact coherent.held sec ((held sec locked).resolve_left same)

/-- A turn that changes nothing but what its thread has to do. -/
theorem Coherent.move (coherent : p.Coherent start) (place : Place start p.lock p.broker t r.todo) :
    (p.setReader t r).Coherent start :=
  coherent.after rfl coherent.serial coherent.free place (fun _ _ _ place => place)
    fun _ locked => .inr locked

/-- The thread that holds the mutex is in its critical section or at its end. -/
theorem Coherent.holder (coherent : p.Coherent start) (reader : p.readers t = some r) {sec : Section}
    (locked : p.lock = some sec) (token : sec.token = t) {a : Action} {rest : List Action}
    (todo : r.todo = a :: rest) :
    (a = .unlock ∧ Outside rest ∧ Underway start t sec.job sec.attempts [] p.broker) ∨
      ∃ crit more, rest = crit ++ .unlock :: more ∧ Outside more ∧
        Underway start t sec.job sec.attempts (a :: crit) p.broker := by
  cases coherent.places t r reader with
  | outside free => exact absurd token (free sec locked)
  | @inside sec' crit more held token' cut outside underway =>
    cases held.symm.trans locked
    rw [todo] at cut
    cases crit with
    | nil =>
      cases cut
      exact .inl ⟨rfl, outside, underway⟩
    | cons b crit =>
      cases cut
      exact .inr ⟨crit, more, rfl, outside, underway⟩

/-- A thread that does something inside of a critical section holds the mutex. -/
theorem Coherent.inside (coherent : p.Coherent start) (reader : p.readers t = some r) {a : Action}
    {rest : List Action} (todo : r.todo = a :: rest) (unsent : ∀ pkt, a ≠ .send pkt)
    (entered : ∀ job, a ≠ .lock job) : ∃ sec, p.lock = some sec ∧ sec.token = t := by
  cases coherent.places t r reader with
  | inside held token => exact ⟨_, held, token⟩
  | outside free outside =>
    rw [todo] at outside
    rcases outside.cons with ⟨pkt, rfl, -⟩ | ⟨job, -, rfl, -⟩
    · exact absurd rfl (unsent pkt)
    · exact absurd rfl (entered job)

/-- Whoever sends or wants the mutex does not hold it. -/
theorem Coherent.outside (coherent : p.Coherent start) (reader : p.readers t = some r) {a : Action}
    {rest : List Action} (todo : r.todo = a :: rest)
    (waits : (∃ pkt, a = .send pkt) ∨ ∃ job, a = .lock job) :
    (∀ sec, p.lock = some sec → sec.token ≠ t) ∧ Outside (a :: rest) := by
  cases coherent.places t r reader with
  | outside free outside => exact ⟨free, todo ▸ outside⟩
  | inside held token cut outside underway =>
    rcases coherent.holder reader held token todo with ⟨rfl, -⟩ | ⟨crit, more, rfl, -, underway⟩
    · rcases waits with ⟨pkt, same⟩ | ⟨job, same⟩
      all_goals cases same
    · -- Neither is found in a critical section.
      rcases underway.head with ⟨b', effect⟩ | ⟨_, _, rfl⟩ | ⟨_, _, _, _, _, rfl⟩
      · rcases waits with ⟨pkt, rfl⟩ | ⟨job, rfl⟩
        all_goals cases effect
      all_goals
        rcases waits with ⟨pkt, same⟩ | ⟨job, same⟩
        all_goals cases same

theorem Coherent.act (coherent : p.Coherent start) (reader : p.readers t = some r) {a : Action}
    {rest : List Action} (todo : r.todo = a :: rest) (acts : p.Acts t r rest a q) :
    ∃ start, q.Coherent start := by
  cases acts with
  | @lock job free =>
    obtain ⟨-, queued⟩ := coherent.outside reader todo (.inr ⟨job, rfl⟩)
    rcases queued.cons with ⟨pkt, same, -⟩ | ⟨job', more, same, rfl, outside⟩
    · cases same
    cases same
    refine ⟨start, coherent.after rfl coherent.serial
      (fun open_ => by cases open_) ?_ ?_ ?_⟩
    · rw [coherent.free free]
      exact .inside rfl rfl rfl outside (.enter start t job)
    · intro u todo other place
      cases place with
      | inside held => cases free.symm.trans held
      | outside free outside =>
        refine .outside (fun sec locked => ?_) outside
        cases locked
        exact other.symm
    · intro sec locked
      cases locked
      exact .inl rfl
  | @change a b effect =>
    obtain ⟨sec, locked, rfl⟩ := coherent.inside reader todo
      (by rintro pkt rfl; cases effect) (by rintro job rfl; cases effect)
    rcases coherent.holder reader locked rfl todo with ⟨rfl, -⟩ | ⟨crit, more, rfl, outside, underway⟩
    · cases effect
    refine ⟨start, coherent.after rfl coherent.serial
      (fun free => by cases free.symm.trans locked) ?_ ?_ (fun _ locked => .inr locked)⟩
    · exact .inside locked rfl rfl outside (underway.effect effect)
    · intro u todo other place
      refine .outside (fun sec' locked' => ?_) (place.others locked other.symm)
      cases locked.symm.trans locked'
      exact other.symm
  | @publish topic payload =>
    obtain ⟨sec, locked, rfl⟩ := coherent.inside reader todo (by simp) (by simp)
    rcases coherent.holder reader locked rfl todo with ⟨same, -⟩ | ⟨crit, more, rfl, outside, underway⟩
    · cases same
    exact ⟨start, coherent.move
      (.inside locked rfl (show _ = (_ :: crit) ++ .unlock :: more from rfl) outside underway.begin_retain)⟩
  | @attempt topic pkt s left out q result wanted tried =>
    obtain ⟨sec, locked, rfl⟩ := coherent.inside reader todo (by simp) (by simp)
    rcases coherent.holder reader locked rfl todo with ⟨same, -⟩ | ⟨crit, more, rfl, outside, underway⟩
    · cases same
    rw [trySend_frame tried]
    have next := underway.attempt wanted result
    have noted : ({ p with lines := q.lines }.note s result).lock =
        some { sec with attempts := sec.attempts ++ [(s, result)] } := by
      simp [note, locked]
    refine ⟨start, coherent.after rfl coherent.serial (fun free => by cases free.symm.trans noted)
      ?_ ?_ ?_⟩
    · exact .inside noted rfl (show _ = (_ :: crit) ++ .unlock :: more from rfl) outside next
    · intro u todo other place
      refine .outside (fun sec' locked' => ?_) (place.others locked other.symm)
      cases noted.symm.trans locked'
      exact other.symm
    · intro sec' locked'
      cases noted.symm.trans locked'
      exact .inl rfl
  | @skip topic pkt s left out unwanted =>
    obtain ⟨sec, locked, rfl⟩ := coherent.inside reader todo (by simp) (by simp)
    rcases coherent.holder reader locked rfl todo with ⟨same, -⟩ | ⟨crit, more, rfl, outside, underway⟩
    · cases same
    exact ⟨start, coherent.move
      (.inside locked rfl (show _ = (_ :: crit) ++ .unlock :: more from rfl) outside (underway.skip unwanted))⟩
  | unlock =>
    obtain ⟨sec, locked, rfl⟩ := coherent.inside reader todo (by simp) (by simp)
    rcases coherent.holder reader locked rfl todo with ⟨-, outside, underway⟩ | ⟨crit, more, -, -, underway⟩
    · obtain ⟨tries, made⟩ := underway.finish
      refine ⟨p.broker, coherent.after rfl
        ?_ (fun _ => rfl) (.outside (fun sec locked => by cases locked) outside) ?_
        (fun sec locked => by cases locked)⟩
      · rw [made, locked]
        exact .snoc coherent.serial tries
      · intro u todo other place
        exact .outside (fun sec locked => by cases locked) (place.others locked other.symm)
    · rcases underway.head with ⟨b', effect⟩ | ⟨_, _, same⟩ | ⟨_, _, _, _, _, same⟩
      · cases effect
      all_goals cases same
  | @ignored pkt l line deaf =>
    obtain ⟨free, outside⟩ := coherent.outside reader todo (.inl ⟨pkt, rfl⟩)
    rcases outside.cons with ⟨_, -, outside⟩ | ⟨_, _, same, -⟩
    · exact ⟨start, coherent.move (.outside free outside)⟩
    · cases same
  | @send pkt l line connected room =>
    obtain ⟨free, outside⟩ := coherent.outside reader todo (.inl ⟨pkt, rfl⟩)
    rcases outside.cons with ⟨_, -, outside⟩ | ⟨_, _, same, -⟩
    · exact ⟨start, Coherent.move (p := p.setLine t (l.push false pkt))
        ⟨coherent.serial, coherent.free, coherent.places, coherent.held⟩ (.outside free outside)⟩
    · cases same

theorem Coherent.step (coherent : p.Coherent start) (answered : p.Answered) (moves : p.Moves turn q) :
    ∃ start, q.Coherent start := by
  cases moves with
  | refused => exact ⟨start, coherent.serial, coherent.free, coherent.places, coherent.held⟩
  | accepted =>
    -- The holder of the mutex was accepted before.
    have free : ∀ sec, p.lock = some sec → sec.token ≠ p.nextToken := by
      intro sec locked same
      obtain ⟨r, reader⟩ := coherent.held sec locked
      rw [same, (answered.given _ le_rfl).1] at reader
      cases reader
    have started : (p.setReader p.nextToken .start).Coherent start :=
      coherent.move (.outside free .nil)
    exact ⟨start, started.serial, started.free, started.places, started.held⟩
  | @receive t r bytes reader idle stage =>
    refine ⟨start, coherent.move (.outside (fun sec locked token => ?_) (r.receive_outside bytes))⟩
    -- Who has nothing to do does not hold the mutex.
    cases coherent.places t r reader with
    | outside free => exact free sec locked token
    | inside held token cut => simp [idle] at cut
  | @returns t r bytes reader idle stage =>
    refine ⟨start, coherent.move ?_⟩
    exact coherent.places t r reader
  | act reader todo acts => exact coherent.act reader todo acts
  | _ => exact ⟨start, coherent.serial, coherent.free, coherent.places, coherent.held⟩

theorem Answered.after (answered : p.Answered) (reader : p.readers t ≠ none)
    (readers : p'.readers = p.readers) (tokens : p'.nextToken = p.nextToken)
    (others : ∀ u, u ≠ t → p'.served u = p.served u)
    (mine : p'.served t ++ Action.jobs r.todo = r.asked) : (p'.setReader t r).Answered where
  given u new := by
    have new' : p.nextToken ≤ u := by
      rw [← tokens]
      exact new
    obtain ⟨absent, unserved⟩ := answered.given u new'
    have other : u ≠ t := by
      rintro rfl
      exact reader absent
    rw [setReader_other _ _ _ _ other, readers]
    exact ⟨absent, (others u other).trans unserved⟩
  asked u s there := by
    by_cases same : u = t
    · rw [same, setReader_self] at there
      cases there
      rw [same]
      exact mine
    · rw [setReader_other _ _ _ _ same, readers] at there
      have served : (p'.setReader t r).served u = p.served u := others u same
      rw [served]
      exact answered.asked u s there

theorem served_note (s : Subscription) (result : TrySend) (u : Token) :
    (p.note s result).served u = p.served u := by
  simp only [served, note, List.filter_append, List.map_append]
  congr 1
  cases p.lock with
  | none => rfl
  | some sec =>
    simp only [Option.map_some, Option.toList_some, List.filter_cons]
    split <;> rfl

theorem Answered.act (answered : p.Answered) (reader : p.readers t = some r) {a : Action}
    {rest : List Action} (todo : r.todo = a :: rest) (acts : p.Acts t r rest a q) : q.Answered := by
  have there : p.readers t ≠ none := by simp [reader]
  have asked := answered.asked t r reader
  rw [todo] at asked
  cases acts with
  | @lock job free =>
    refine answered.after there rfl rfl (fun u other => ?_) ?_
    · simp [served, free, other.symm]
    · simp only [served, free, Option.toList_none, List.append_nil, Action.jobs] at asked
      simp [served, ← asked, Action.jobs]
  | @change a b effect =>
    refine answered.after there rfl rfl (fun u other => rfl) ?_
    cases a with
    | lock job => cases effect
    | _ => exact asked
  | publish => exact answered.after there rfl rfl (fun u other => rfl) asked
  | @attempt topic pkt s left out q result wanted tried =>
    rw [trySend_frame tried]
    refine answered.after there rfl rfl (fun u other => served_note s result u) ?_
    rw [served_note]
    exact asked
  | skip => exact answered.after there rfl rfl (fun u other => rfl) asked
  | unlock =>
    refine answered.after there rfl rfl (fun u other => ?_) ?_
    · simp [served]
    · have same : Process.served { p with lock := none, log := p.log ++ p.lock.toList } t = p.served t := by
        simp [served]
      rw [same]
      exact asked
  | ignored => exact answered.after there rfl rfl (fun u other => rfl) asked
  | @send pkt l line connected room =>
    have pushed : (p.setLine t (l.push false pkt)).Answered := ⟨answered.given, answered.asked⟩
    exact pushed.after there rfl rfl (fun u other => rfl) asked

theorem Answered.step (answered : p.Answered) (moves : p.Moves turn q) : q.Answered := by
  cases moves with
  | refused => exact ⟨fun t new => answered.given t (Nat.le_of_succ_le new), answered.asked⟩
  | accepted =>
    constructor
    · intro t new
      have other : t ≠ p.nextToken := Nat.ne_of_gt new
      obtain ⟨absent, unserved⟩ := answered.given t (Nat.le_of_succ_le new)
      exact ⟨(setReader_other _ _ _ _ other).trans absent, unserved⟩
    · intro t r there
      by_cases same : t = p.nextToken
      · have started : some Reader.start = some r := by
          rw [← there, same]
          exact (setReader_self _ _ _).symm
        cases started
        exact (congrArg (· ++ []) (answered.given t (Nat.le_of_eq same.symm)).2)
      · exact answered.asked t r ((setReader_other _ _ _ _ same).symm.trans there)
  | @receive t r bytes reader idle stage =>
    have asked := answered.asked t r reader
    refine answered.after (by simp [reader]) rfl rfl (fun u other => rfl) ?_
    rw [idle] at asked
    rw [Reader.receive, ← asked]
    simp [Action.jobs]
  | @returns t r bytes reader idle stage =>
    exact answered.after (by simp [reader]) rfl rfl (fun u other => rfl) (answered.asked t r reader)
  | act reader todo acts => exact answered.act reader todo acts
  | _ => exact ⟨answered.given, answered.asked⟩

theorem Reachable.coherent (reached : p.Reachable) : (∃ start, p.Coherent start) ∧ p.Answered := by
  refine Reachable.induct ?_ ?_ reached
  · refine ⟨⟨.new, .nil, fun _ => rfl, ?_, ?_⟩, fun t _ => ⟨rfl, rfl⟩, ?_⟩
    · intro t r there
      cases there
    · intro sec locked
      cases locked
    · intro t r there
      cases there
  · rintro p turn q - ⟨⟨start, coherent⟩, answered⟩ moves
    exact ⟨coherent.step answered moves, answered.step moves⟩

/-- Whenever the mutex is free, the broker is what whole critical sections made of it one after the
other, however the threads were scheduled; and those of each connection are its requests, once each
and in the order in which it made them, up to one that still waits. -/
theorem serial (p : Process) (reached : p.Reachable) (free : p.lock = none) :
    Serial p.log p.broker ∧ ∀ t r, p.readers t = some r →
      (p.log.filter fun sec => sec.token == t).map Section.job ++ Action.jobs r.todo = r.asked := by
  obtain ⟨⟨start, coherent⟩, answered⟩ := reached.coherent
  refine ⟨coherent.free free ▸ coherent.serial, fun t r reader => ?_⟩
  have asked := answered.asked t r reader
  simpa [served, free] using asked

/-- A SUBSCRIBE and a PUBLISH. -/
theorem serial_two : ∃ p : Process, p.Reachable ∧ p.log.map Section.token = [1, 2] ∧ Serial p.log p.broker := by
  obtain ⟨p, reached, checked⟩ := exists_reachable
    (subscribed ++ [.read 2 [0x30, 4, 0, 1, 97, 120], .act 2, .act 2, .act 2, .act 2, .act 2])
    (fun p => p.lock.isNone && p.log.map Section.token == [1, 2]) (by decide +kernel)
  obtain ⟨free, sections⟩ := (Bool.and_eq_true _ _).mp checked
  exact ⟨p, reached, by simpa using sections, (serial p reached (by simpa using free)).1⟩

end Process
end MioBroker.Threaded
