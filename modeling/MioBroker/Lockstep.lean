import MioBroker.Departure

/-!
# One request at a time

`World.process` handles a packet as if nobody else were there. That is one way the threads can be
scheduled: the reader thread gets the packet and all its turns, and its writer thread makes room when
the channel is full.
-/
namespace MioBroker.Threaded

open Rust

/-- What a reader thread does for one packet: critical sections and answers. -/
inductive Errand
  | serve (job : Job)
  | answer (pkt : Bytes)

def Errand.actions : Errand → List Action
  | .serve job => job.program
  | .answer pkt => [.send pkt]

namespace World

/-- The channel of a connection is replaced. -/
def setTx (w : World) (t : Token) (c : Connection) (tx : Channel) : World :=
  { w with connections := w.connections.insert t { c with tx } }

/-- A critical section, when nobody else is there. -/
def does (w : World) (t : Token) : Job → World
  | .connect cid => { w with broker := { w.broker with clientIds := w.broker.clientIds ++ [cid] } }
  | .subscribe topics =>
    { w with broker := topics.foldl (fun b e => b.subscribe e.1 e.2 t t) w.broker }
  | .unsubscribe filters => { w with broker := filters.foldl (fun b f => b.unsubscribe f t) w.broker }
  | .publish topic payload => (w.publish topic payload).1
  | .leave cid =>
    let broker := w.broker.disconnectClient t
    { w with broker := { broker with clientIds := broker.clientIds.filter fun c => c != cid } }

def errand (t : Token) (w : World) : Errand → World
  | .serve job => w.does t job
  | .answer pkt => w.send t pkt

/-- `v` is `w`, but for what is known of one connection. -/
structure Knows (w : World) (t : Token) (c : Connection) (v : World) : Prop where
  broker : v.broker = w.broker
  tokens : v.nextToken = w.nextToken
  slots : ∀ k, v.connections.get? k = if k = t then some c else w.connections.get? k

/-- What happens to the broker when it handles one thing at a time. -/
inductive Round (w : World) : World → Prop
  | accept : Round w w.accept
  | take {t : Token} {n : Nat} {c : Connection} (found : w.connections.get? t = some c)
      (there : n ≤ c.tx.queue.length) : Round w (w.take t n)
  | process {t : Token} {bytes : Bytes} {c : Connection} {w' : World}
      (found : w.connections.get? t = some c) (done : w.process t bytes = .ok w') : Round w w'

end World

namespace Process

/-- Some turns lead from one state to another. -/
def Leads (p q : Process) : Prop := ∃ turns, Machine.Path step (fun _ _ => True) p turns q

theorem Leads.refl (p : Process) : p.Leads p := ⟨[], .nil⟩

theorem Leads.turn {p q : Process} (turn : Turn) (done : p.step turn = .ok q) : p.Leads q :=
  ⟨[turn], .single turn trivial done⟩

theorem Leads.trans {p q s : Process} (first : p.Leads q) (second : q.Leads s) : p.Leads s := by
  obtain ⟨turns, before⟩ := first
  obtain ⟨turns', after⟩ := second
  exact ⟨turns ++ turns', before.append after⟩

/-- The threads are what the world says, up to where the reader threads stand. -/
structure Shows (w : World) (p : Process) (stage : Token → Stage) (todo : Token → List Action)
    (held : Bool) : Prop where
  broker : p.broker = w.broker
  tokens : p.nextToken = w.nextToken
  lock : p.lock.isSome = held
  readers : ∀ u c, w.connections.get? u = some c →
    ∃ asked, p.readers u = some ⟨c.clientId, c.keepaliveS, stage u, todo u, asked⟩
  lines : ∀ u c, w.connections.get? u = some c →
    ∃ l, p.lines u = some l ∧ l.tx = c.tx ∧ l.writer = .waiting
  gone : ∀ u r, p.readers u = some r → w.connections.get? u = none → r.stage = .returned

/-- All threads wait: for a packet, or for something to write. -/
abbrev Rests (w : World) (p : Process) : Prop := Shows w p (fun _ => .serving) (fun _ => []) false

variable {w : World} {p : Process} {stage : Token → Stage} {todo : Token → List Action} {held : Bool}
  {t : Token} {c : Connection} {a : Action} {rest : List Action}

theorem act_effect {r : Reader} {b : Broker} (effect : a.effect t p.broker = some b) :
    p.act t r rest a = .ok ({ p with broker := b }.setReader t { r with todo := rest }) := by
  cases a with
  | retain topic pkt left out =>
    cases left with
    | nil =>
      cases effect
      rfl
    | cons s left => cases effect
  | lock job => cases effect
  | publish topic payload => cases effect
  | unlock => cases effect
  | send pkt => cases effect
  | _ =>
    cases effect
    rfl

theorem step_act {r : Reader} {q : Process} (reader : p.readers t = some r) (first : r.todo = a :: rest)
    (done : p.act t r rest a = .ok q) : p.step (.act t) = .ok q := by
  simp only [step, reader, first, done]

theorem Leads.reachable {q : Process} (leads : p.Leads q) (reached : p.Reachable) : q.Reachable := by
  obtain ⟨turns, path⟩ := leads
  exact Machine.Reaches.path reached path

/-- A reader thread gets on with what it has to do. -/
theorem Shows.setReader (shows : Shows w p stage todo held) (found : w.connections.get? t = some c)
    (next : List Action) (asked : List Job) :
    Shows w (p.setReader t ⟨c.clientId, c.keepaliveS, stage t, next, asked⟩) stage
      (Function.update todo t next) held := by
  refine ⟨shows.broker, shows.tokens, shows.lock, ?_, shows.lines, ?_⟩
  · intro u d there
    by_cases here : u = t
    · subst here
      cases found.symm.trans there
      exact ⟨asked, by rw [setReader_self, Function.update_self]⟩
    · rw [setReader_other _ _ _ _ here, Function.update_of_ne here]
      exact shows.readers u d there
  · intro u r there absent
    by_cases here : u = t
    · subst here
      cases found.symm.trans absent
    · rw [setReader_other _ _ _ _ here] at there
      exact shows.gone u r there absent

/-- What happens to one channel. -/
theorem Shows.setLine (shows : Shows w p stage todo held) (found : w.connections.get? t = some c)
    {l : Line} (waiting : l.writer = .waiting) : Shows (w.setTx t c l.tx) (p.setLine t l) stage todo held := by
  refine ⟨shows.broker, shows.tokens, shows.lock, ?_, ?_, ?_⟩
  · intro u d there
    simp only [World.setTx, HashMap.get?_insert] at there
    split at there
    next here =>
      cases there
      rw [here]
      exact shows.readers t c found
    next => exact shows.readers u d there
  · intro u d there
    simp only [World.setTx, HashMap.get?_insert] at there
    split at there
    next here =>
      cases there
      exact ⟨l, here ▸ setLine_self _ _ _, rfl, waiting⟩
    next here =>
      rw [setLine_other _ _ _ _ here]
      exact shows.lines u d there
  · intro u r there absent
    refine shows.gone u r there ?_
    simp only [World.setTx, HashMap.get?_insert] at absent
    split at absent
    · cases absent
    · exact absent

/-- The thread of a connection with something to do takes its turn. -/
theorem Shows.turn (shows : Shows w p stage todo held) (found : w.connections.get? t = some c)
    (first : todo t = a :: rest) {q : List Job → Process}
    (done : ∀ asked, p.act t ⟨c.clientId, c.keepaliveS, stage t, a :: rest, asked⟩ rest a = .ok (q asked)) :
    ∃ asked, p.Leads (q asked) := by
  obtain ⟨asked, reader⟩ := shows.readers t c found
  rw [first] at reader
  exact ⟨asked, .turn _ (step_act reader rfl (done asked))⟩

theorem Shows.effect (shows : Shows w p stage todo held) (found : w.connections.get? t = some c)
    (first : todo t = a :: rest) {b : Broker} (effect : a.effect t w.broker = some b) :
    ∃ q, p.Leads q ∧ Shows { w with broker := b } q stage (Function.update todo t rest) held := by
  rw [← shows.broker] at effect
  obtain ⟨asked, leads⟩ := shows.turn found first fun asked => act_effect effect
  have changed : Shows { w with broker := b } { p with broker := b } stage todo held :=
    ⟨rfl, shows.tokens, shows.lock, shows.readers, shows.lines, shows.gone⟩
  exact ⟨_, leads, changed.setReader found rest asked⟩

theorem Shows.enter (shows : Shows w p stage todo false) (found : w.connections.get? t = some c)
    {job : Job} (first : todo t = .lock job :: rest) :
    ∃ q, p.Leads q ∧ Shows w q stage (Function.update todo t rest) true := by
  have free : p.lock = none := by simpa using shows.lock
  obtain ⟨asked, leads⟩ := shows.turn found first
    (q := fun asked => { p with lock := some ⟨t, job, []⟩ }.setReader t
      ⟨c.clientId, c.keepaliveS, stage t, rest, asked⟩) fun asked => by simp only [act, free]
  have entered : Shows w { p with lock := some ⟨t, job, []⟩ } stage todo true :=
    ⟨shows.broker, shows.tokens, rfl, shows.readers, shows.lines, shows.gone⟩
  exact ⟨_, leads, entered.setReader found rest asked⟩

theorem Shows.unlock (shows : Shows w p stage todo held) (found : w.connections.get? t = some c)
    (first : todo t = .unlock :: rest) :
    ∃ q, p.Leads q ∧ Shows w q stage (Function.update todo t rest) false := by
  obtain ⟨asked, leads⟩ := shows.turn found first fun asked => rfl
  have left : Shows w { p with lock := none, log := p.log ++ p.lock.toList } stage todo false :=
    ⟨shows.broker, shows.tokens, rfl, shows.readers, shows.lines, shows.gone⟩
  exact ⟨_, leads, left.setReader found rest asked⟩

/-- The loops over the filters of a SUBSCRIBE or UNSUBSCRIBE. -/
theorem Shows.effects {α : Type} {action : α → Action} {f : Broker → α → Broker}
    (effect : ∀ b x, (action x).effect t b = some (f b x)) (xs : List α)
    (shows : Shows w p stage todo held) (found : w.connections.get? t = some c)
    (first : todo t = xs.map action ++ rest) :
    ∃ q, p.Leads q ∧
      Shows { w with broker := xs.foldl f w.broker } q stage (Function.update todo t rest) held := by
  induction xs generalizing w p todo with
  | nil =>
    have stays : Function.update todo t rest = todo := by
      rw [show rest = todo t from first.symm, Function.update_eq_self]
    rw [stays]
    exact ⟨p, .refl p, shows⟩
  | cons x xs ih =>
    obtain ⟨q, leads, shows'⟩ := shows.effect found first (effect w.broker x)
    obtain ⟨s, leads', shows''⟩ := ih shows' found (Function.update_self _ _ _)
    rw [Function.update_idem] at shows''
    exact ⟨s, leads.trans leads', shows''⟩

theorem setLine_setLine (p : Process) (t : Token) (l m : Line) :
    (p.setLine t l).setLine t m = p.setLine t m := by
  simp only [setLine, Function.update_idem]

/-- The writer thread of a connection takes one packet and writes it. -/
theorem Shows.write (shows : Shows w p stage todo held) (found : w.connections.get? t = some c)
    {pkt : Bytes} {queue : List Bytes} (queued : c.tx.queue = pkt :: queue) :
    ∃ q, p.Leads q ∧ Shows (w.setTx t c { c.tx with queue }) q stage todo held := by
  obtain ⟨l, line, tx, waiting⟩ := shows.lines t c found
  rw [← tx] at queued ⊢
  have taken : p.step (.take t) =
      .ok (p.setLine t { l with tx := { l.tx with queue }, writer := .writing pkt }) := by
    simp only [step, line, waiting, queued]
  have written : (p.setLine t { l with tx := { l.tx with queue }, writer := .writing pkt }).step (.wrote t true) =
      .ok (p.setLine t { l with
        tx := { l.tx with queue }, writer := .waiting, written := l.written ++ [pkt] }) := by
    simp only [step, setLine_self, setLine_setLine, if_true]
  have wrote := shows.setLine found (l := { l with
    tx := { l.tx with queue }, writer := .waiting, written := l.written ++ [pkt] }) rfl
  exact ⟨_, (Leads.turn _ taken).trans (.turn _ written), wrote⟩

/-- What a connection can be said to have while the world shows it. -/
theorem Shows.channel (shows : Shows w p stage todo held) (reached : p.Reachable)
    (found : w.connections.get? t = some c) :
    c.tx.connected = true ∧ c.tx.queue.length ≤ SUB_QUEUE_CAP := by
  obtain ⟨l, line, tx, waiting⟩ := shows.lines t c found
  have sound := reached.lined.1.sound t l line
  rw [← tx]
  exact ⟨sound.connected.mpr (by simp [waiting]), sound.bounded⟩

/-- With room in the channel an answer goes in at once. -/
theorem Shows.push (shows : Shows w p stage todo held) (found : w.connections.get? t = some c)
    {pkt : Bytes} (first : todo t = .send pkt :: rest) (connected : c.tx.connected = true)
    (room : c.tx.queue.length < SUB_QUEUE_CAP) :
    ∃ q, p.Leads q ∧ Shows (w.setTx t c { c.tx with queue := c.tx.queue ++ [pkt] }) q stage
      (Function.update todo t rest) held := by
  obtain ⟨l, line, tx, waiting⟩ := shows.lines t c found
  rw [← tx] at connected room ⊢
  obtain ⟨asked, leads⟩ := shows.turn found first
    (q := fun asked => (p.setLine t (l.push false pkt)).setReader t
      ⟨c.clientId, c.keepaliveS, stage t, rest, asked⟩) fun asked => by
    simp only [act, line, connected, room, Bool.not_true, Bool.false_eq_true, if_false, if_true]
  have pushed : Shows (w.setTx t c (l.push false pkt).tx) (p.setLine t (l.push false pkt)) stage todo held :=
    shows.setLine found waiting
  exact ⟨_, leads, pushed.setReader (HashMap.get?_insert_self _ _ _) rest asked⟩

/-- An answer to the connection, for which its writer thread makes room where there is none. -/
theorem Shows.send (shows : Shows w p stage todo held) (reached : p.Reachable)
    (found : w.connections.get? t = some c) {pkt : Bytes} (first : todo t = .send pkt :: rest) :
    ∃ q, p.Leads q ∧ Shows (w.send t pkt) q stage (Function.update todo t rest) held := by
  have sent : w.send t pkt = w.setTx t c (c.tx.send pkt) := by
    simp only [World.send, World.modifyConnection, World.setTx, found]
  obtain ⟨connected, bounded⟩ := shows.channel reached found
  rw [sent, Channel.send, if_pos connected]
  by_cases room : c.tx.queue.length < SUB_QUEUE_CAP
  · rw [Nat.sub_eq_zero_of_le room, List.drop_zero]
    exact shows.push found first connected room
  · cases queued : c.tx.queue with
    | nil => simp [queued, SUB_QUEUE_CAP] at room
    | cons head queue =>
      rw [queued, List.length_cons] at room bounded
      obtain ⟨q, leads, written⟩ := shows.write found queued
      obtain ⟨s, leads', pushed⟩ := written.push (HashMap.get?_insert_self _ _ _) first connected
        (Nat.lt_of_succ_le bounded)
      have dropped : queue.length + 1 + 1 - SUB_QUEUE_CAP = 1 := by omega
      rw [List.length_cons, dropped, List.drop_one, List.tail_cons]
      refine ⟨s, leads.trans leads', ?_⟩
      simpa [World.setTx] using pushed

theorem setLine_same {l : Line} (line : p.lines t = some l) : p.setLine t l = p := by
  have same : Function.update p.lines t (some l) = p.lines := by rw [← line, Function.update_eq_self]
  rw [Process.setLine, same]

/-- A `try_send`, on a channel that the world shows. -/
theorem Shows.trySend (shows : Shows w p stage todo held) (reached : p.Reachable) {u : Token}
    {d : Connection} (found : w.connections.get? u = some d) (pkt : Bytes) :
    ∃ ch result q, w.trySend u pkt = (w.setTx u d ch, result) ∧ p.trySend u pkt = (q, result) ∧
      Shows (w.setTx u d ch) q stage todo held := by
  obtain ⟨connected, -⟩ := shows.channel reached found
  obtain ⟨l, line, tx, waiting⟩ := shows.lines u d found
  rw [← tx] at connected
  by_cases room : l.tx.queue.length < SUB_QUEUE_CAP
  · refine ⟨{ l.tx with queue := l.tx.queue ++ [pkt] }, .ok, p.setLine u (l.push true pkt), ?_, ?_, ?_⟩
    · simp only [World.trySend, found, ← tx, Channel.trySend, connected, room, if_true, World.setTx]
    · simp only [Process.trySend, line, Channel.trySend, connected, room, if_true]
    · exact shows.setLine found (l := l.push true pkt) waiting
  · refine ⟨l.tx, .full, p, ?_, ?_, ?_⟩
    · simp only [World.trySend, found, ← tx, Channel.trySend, connected, room, if_true, if_false,
        World.setTx]
    · simp only [Process.trySend, line, Channel.trySend, connected, room, if_true, if_false]
    · have shown := shows.setLine found (l := l) waiting
      rwa [setLine_same line] at shown

/-- The fan-out of a publish, one subscription after the other. -/
theorem Shows.retain {topic : Str} {pkt : Bytes} (subs : List Subscription) (out : World.Fanout)
    (shows : Shows w p stage todo held) (reached : p.Reachable) (found : w.connections.get? t = some c)
    (first : todo t = .retain topic pkt subs out :: rest)
    (open_ : ∀ s ∈ subs, ∃ d, w.connections.get? s.tx = some d) :
    ∃ q w' more, World.fanout topic pkt subs w = (w', more) ∧ p.Leads q ∧ w'.broker = w.broker ∧
      (∀ k, (w'.connections.get? k).isSome = (w.connections.get? k).isSome) ∧
      Shows { w' with broker := { w.broker with
        subs := out.kept ++ more.kept
        drops := w.broker.drops + (out.dropped + more.dropped)
        deadSubs := w.broker.deadSubs + (out.dead + more.dead) } } q stage (Function.update todo t rest)
        held := by
  induction subs generalizing w p out todo c with
  | nil =>
    obtain ⟨q, leads, shown⟩ := shows.effect found first rfl
    refine ⟨q, w, ⟨[], 0, 0, 0⟩, rfl, leads, rfl, fun _ => rfl, ?_⟩
    simpa using shown
  | cons s subs ih =>
    by_cases wanted : topicMatches s.filter topic = true
    · obtain ⟨d, there⟩ := open_ s List.mem_cons_self
      obtain ⟨ch, result, p', sent, tried, answered⟩ := shows.trySend reached there pkt
      have slots' : ∀ k, ((w.setTx s.tx d ch).connections.get? k).isSome = (w.connections.get? k).isSome := by
        intro k
        simp only [World.setTx, HashMap.get?_insert]
        split
        next here => simp [here, there]
        next => rfl
      -- The connection itself may be among those that are sent the message.
      obtain ⟨c', found', id, keepalive⟩ : ∃ c', (w.setTx s.tx d ch).connections.get? t = some c' ∧
          c'.clientId = c.clientId ∧ c'.keepaliveS = c.keepaliveS := by
        simp only [World.setTx, HashMap.get?_insert]
        split
        next here =>
          subst here
          cases found.symm.trans there
          exact ⟨_, rfl, rfl, rfl⟩
        next => exact ⟨c, found, rfl, rfl⟩
      obtain ⟨asked, leads⟩ := shows.turn found first
        (q := fun asked => (p'.note s result).setReader t ⟨c.clientId, c.keepaliveS, stage t,
          .retain topic pkt subs (out.count s result) :: rest, asked⟩) fun asked => by
        simp only [act, wanted, if_true, tried]
      have noted : Shows (w.setTx s.tx d ch) (p'.note s result) stage todo held :=
        ⟨answered.broker, answered.tokens, by rw [← answered.lock]; simp [note], answered.readers,
          answered.lines, answered.gone⟩
      have going := noted.setReader found' (.retain topic pkt subs (out.count s result) :: rest) asked
      rw [id, keepalive] at going
      obtain ⟨q, w', more, fanned, leads', broker, slots, shown⟩ :=
        ih (out.count s result) going (leads.reachable reached) found' (Function.update_self _ _ _)
          fun u member => by
            obtain ⟨e, there'⟩ := open_ u (List.mem_cons_of_mem _ member)
            have kept := slots' u.tx
            rw [there'] at kept
            exact Option.isSome_iff_exists.mp kept
      rw [Function.update_idem] at shown
      have same_slots := fun k => (slots k).trans (slots' k)
      cases result with
      | ok =>
        refine ⟨q, w', { more with kept := s :: more.kept, delivered := more.delivered + 1 }, ?_,
          leads.trans leads', broker, same_slots, ?_⟩
        · simp only [World.fanout, wanted, Bool.not_true, Bool.false_eq_true, if_false, sent, fanned]
        · simpa [World.Fanout.count, World.setTx] using shown
      | full =>
        refine ⟨q, w', { more with kept := s :: more.kept, dropped := more.dropped + 1 }, ?_,
          leads.trans leads', broker, same_slots, ?_⟩
        · simp only [World.fanout, wanted, Bool.not_true, Bool.false_eq_true, if_false, sent, fanned]
        · simpa [World.Fanout.count, World.setTx, Nat.add_assoc, Nat.add_comm 1] using shown
      | disconnected =>
        refine ⟨q, w', { more with dead := more.dead + 1 }, ?_, leads.trans leads', broker, same_slots, ?_⟩
        · simp only [World.fanout, wanted, Bool.not_true, Bool.false_eq_true, if_false, sent, fanned]
        · simpa [World.Fanout.count, World.setTx, Nat.add_assoc, Nat.add_comm 1] using shown
    · have unwanted : topicMatches s.filter topic = false := by simpa using wanted
      obtain ⟨asked, leads⟩ := shows.turn found first
        (q := fun asked => p.setReader t ⟨c.clientId, c.keepaliveS, stage t,
          .retain topic pkt subs { out with kept := out.kept ++ [s] } :: rest, asked⟩) fun asked => by
        simp only [act, unwanted, Bool.false_eq_true, if_false]
      have skipped := shows.setReader found (.retain topic pkt subs { out with kept := out.kept ++ [s] } :: rest) asked
      obtain ⟨q, w', more, fanned, leads', broker, slots, shown⟩ :=
        ih { out with kept := out.kept ++ [s] } skipped (leads.reachable reached) found
          (Function.update_self _ _ _) fun s member => open_ s (List.mem_cons_of_mem _ member)
      refine ⟨q, w', { more with kept := s :: more.kept }, ?_, leads.trans leads', broker, slots, ?_⟩
      · simp only [World.fanout, unwanted, Bool.not_false, if_true, fanned]
      · rw [Function.update_idem] at shown
        simpa using shown

/-- Only what can be looked up matters. -/
theorem Shows.congr {v : World} (shows : Shows v p stage todo held) (broker : w.broker = v.broker)
    (tokens : w.nextToken = v.nextToken)
    (slots : ∀ k, w.connections.get? k = v.connections.get? k) : Shows w p stage todo held where
  broker := shows.broker.trans broker.symm
  tokens := shows.tokens.trans tokens.symm
  lock := shows.lock
  readers u c found := shows.readers u c ((slots u).symm.trans found)
  lines u c found := shows.lines u c ((slots u).symm.trans found)
  gone u r reader absent := shows.gone u r reader ((slots u).symm.trans absent)

/-- Every subscription has its connection, as long as no other reader thread is on its way out. -/
theorem Shows.homed (shows : Shows w p stage todo held) (reached : p.Reachable) :
    ∀ s ∈ w.broker.subs, ∃ d, w.connections.get? s.tx = some d := by
  intro s member
  rw [← shows.broker] at member
  obtain ⟨same, r, reader, left⟩ := reached.owned.owned s member
  cases found : w.connections.get? s.tx with
  | some d => exact ⟨d, rfl⟩
  | none =>
    rw [← same] at reader
    have returned := shows.gone _ r reader found
    rcases left with serving | panicked | ⟨leaving, -⟩
    · cases returned.symm.trans serving
    · cases returned.symm.trans panicked
    · cases returned.symm.trans leaving

theorem Shows.job (shows : Shows w p stage todo false) (reached : p.Reachable)
    (found : w.connections.get? t = some c) (job : Job) (first : todo t = job.program ++ rest) :
    ∃ q, p.Leads q ∧ Shows (w.does t job) q stage (Function.update todo t rest) false ∧
      (∀ k, ((w.does t job).connections.get? k).isSome = (w.connections.get? k).isSome) := by
  rw [Job.program, List.cons_append, List.append_assoc, List.singleton_append] at first
  obtain ⟨q, leads, entered⟩ := shows.enter found first
  have inside : Function.update todo t (job.actions ++ .unlock :: rest) t = job.actions ++ .unlock :: rest :=
    Function.update_self _ _ _
  -- What is left is to leave the critical section.
  have leave : ∀ {v : World} {d : Connection} {s : Process},
      Shows v s stage (Function.update todo t (.unlock :: rest)) true → v.connections.get? t = some d →
      q.Leads s → ∃ q, p.Leads q ∧ Shows v q stage (Function.update todo t rest) false := by
    intro v d s done there leads'
    obtain ⟨s', leads'', left⟩ := done.unlock there (Function.update_self _ _ _)
    rw [Function.update_idem] at left
    exact ⟨s', (leads.trans leads').trans leads'', left⟩
  cases job with
  | connect cid =>
    obtain ⟨s, leads', done⟩ := entered.effect found inside rfl
    rw [Function.update_idem] at done
    obtain ⟨q, leads, left⟩ := leave done found leads'
    exact ⟨q, leads, left, fun _ => rfl⟩
  | subscribe topics =>
    obtain ⟨s, leads', done⟩ := Shows.effects (fun _ _ => rfl) topics entered found inside
    rw [Function.update_idem] at done
    obtain ⟨q, leads, left⟩ := leave done found leads'
    exact ⟨q, leads, left, fun _ => rfl⟩
  | unsubscribe filters =>
    obtain ⟨s, leads', done⟩ := Shows.effects (fun _ _ => rfl) filters entered found inside
    rw [Function.update_idem] at done
    obtain ⟨q, leads, left⟩ := leave done found leads'
    exact ⟨q, leads, left, fun _ => rfl⟩
  | publish topic payload =>
    obtain ⟨asked, begins⟩ := entered.turn found inside
      (q := fun asked => q.setReader t ⟨c.clientId, c.keepaliveS, stage t,
        .retain topic (buildForward topic.bytes payload) q.broker.subs ⟨[], 0, 0, 0⟩ :: .unlock :: rest,
        asked⟩) fun asked => rfl
    have begun := entered.setReader found
      (.retain topic (buildForward topic.bytes payload) q.broker.subs ⟨[], 0, 0, 0⟩ :: .unlock :: rest) asked
    have reached' := begins.reachable (leads.reachable reached)
    rw [entered.broker] at begun begins reached'
    obtain ⟨s, w', more, fanned, leads', broker, slots, done⟩ := begun.retain w.broker.subs _ reached' found
      (Function.update_self _ _ _) (shows.homed reached)
    rw [Function.update_idem, Function.update_idem] at done
    have published : (w.does t (.publish topic payload)) = { w' with broker := { w.broker with
        subs := more.kept
        drops := w.broker.drops + more.dropped
        deadSubs := w.broker.deadSubs + more.dead } } := by
      simp only [World.does, World.publish, fanned, broker]
    rw [published]
    simp only [List.nil_append, Nat.zero_add] at done
    have kept := slots t
    rw [found, Option.isSome_some] at kept
    obtain ⟨d, there⟩ := Option.isSome_iff_exists.mp kept
    obtain ⟨q, leads, left⟩ := leave done there (begins.trans leads')
    exact ⟨q, leads, left, slots⟩
  | leave cid =>
    obtain ⟨s, leads', done⟩ := entered.effect found inside rfl
    obtain ⟨s', leads'', done'⟩ := done.effect found (Function.update_self _ _ _) rfl
    rw [Function.update_idem, Function.update_idem] at done'
    obtain ⟨q, leads, left⟩ := leave done' found (leads'.trans leads'')
    exact ⟨q, leads, left, fun _ => rfl⟩

theorem Shows.errands (errands : List Errand) (shows : Shows w p stage todo false)
    (reached : p.Reachable) (found : w.connections.get? t = some c)
    (first : todo t = errands.flatMap Errand.actions) :
    ∃ q, p.Leads q ∧ Shows (errands.foldl (World.errand t) w) q stage (Function.update todo t []) false := by
  induction errands generalizing w p todo c with
  | nil =>
    have stays : Function.update todo t [] = todo := by
      rw [show [] = todo t from first.symm, Function.update_eq_self]
    rw [stays]
    exact ⟨p, .refl p, shows⟩
  | cons e errands ih =>
    rw [List.flatMap_cons] at first
    have one : ∃ q, p.Leads q ∧
        Shows (w.errand t e) q stage (Function.update todo t (errands.flatMap Errand.actions)) false ∧
        ∃ d, (w.errand t e).connections.get? t = some d := by
      cases e with
      | serve job =>
        obtain ⟨q, leads, shown, slots⟩ := shows.job reached found job first
        have kept := slots t
        rw [found] at kept
        exact ⟨q, leads, shown, Option.isSome_iff_exists.mp kept⟩
      | answer pkt =>
        obtain ⟨q, leads, shown⟩ := shows.send reached found first
        refine ⟨q, leads, shown, ?_⟩
        simp only [World.errand, World.send, World.modifyConnection, found]
        exact ⟨_, HashMap.get?_insert_self _ _ _⟩
    obtain ⟨q, leads, shown, d, there⟩ := one
    obtain ⟨s, leads', shown'⟩ := ih shown (leads.reachable reached) there (Function.update_self _ _ _)
    rw [Function.update_idem] at shown'
    exact ⟨s, leads.trans leads', shown'⟩

/-- A connection reads, and its reader thread has something to do. -/
theorem Shows.read (rests : Rests w p) (found : w.connections.get? t = some c) (r : Reader) {v : World}
    (knows : w.Knows t ⟨r.clientId, r.keepaliveS, c.tx⟩ v) :
    Shows v (p.setReader t r) (Function.update (fun _ => .serving) t r.stage)
      (Function.update (fun _ => []) t r.todo) false := by
  refine ⟨rests.broker.trans knows.broker.symm, rests.tokens.trans knows.tokens.symm, rests.lock, ?_, ?_, ?_⟩
  · intro u d there
    rw [knows.slots] at there
    split at there
    next here =>
      cases there
      subst here
      exact ⟨r.asked, by simp [setReader_self]⟩
    next here =>
      rw [setReader_other _ _ _ _ here, Function.update_of_ne here, Function.update_of_ne here]
      exact rests.readers u d there
  · intro u d there
    rw [knows.slots] at there
    split at there
    next here =>
      cases there
      exact here ▸ rests.lines t c found
    next => exact rests.lines u d there
  · intro u s there absent
    rw [knows.slots] at absent
    split at absent
    · cases absent
    next here =>
      rw [setReader_other _ _ _ _ here] at there
      exact rests.gone u s there absent

/-- What the threads make of a packet is what the world makes of it. -/
theorem handle_lockstep (found : w.connections.get? t = some c) {pkt : Packet} {w' : World} {serves : Bool}
    {r : Reader} (id : r.clientId = c.clientId) (keepalive : r.keepaliveS = c.keepaliveS)
    (done : w.handle t pkt = .ok (w', serves)) :
    ∃ next, r.handle pkt = .ok next ∧
      ((serves = false ∧ w' = w ∧ next = r.leave) ∨
        serves = true ∧ next.stage = r.stage ∧ ∃ (v : World) (errands : List Errand),
          w.Knows t ⟨next.clientId, next.keepaliveS, c.tx⟩ v ∧
          w' = errands.foldl (World.errand t) v ∧ next.todo = errands.flatMap Errand.actions) := by
  have same : w.Knows t ⟨r.clientId, r.keepaliveS, c.tx⟩ w := by
    refine ⟨rfl, rfl, fun k => ?_⟩
    rw [id, keepalive]
    split
    next here => rw [here, found]
    next => rfl
  simp only [World.handle] at done
  simp only [Reader.handle]
  split at done
  next connect =>
    obtain ⟨parsed, parse, done⟩ := Run.bind_ok.mp done
    rw [if_pos connect, parse, Run.ok_bind]
    cases parsed with
    | none =>
      cases done
      exact ⟨_, rfl, .inl ⟨rfl, rfl, rfl⟩⟩
    | some q =>
      cases done
      have known : w.Knows t ⟨q.1, q.2.toNat, c.tx⟩
          (w.modifyConnection t fun c => { c with clientId := q.1, keepaliveS := q.2.toNat }) := by
        simp only [World.modifyConnection, found]
        exact ⟨rfl, rfl, fun k => HashMap.get?_insert _ _ _ _⟩
      exact ⟨_, rfl, .inr ⟨rfl, rfl, _, [.serve (.connect q.1), .answer buildConnack], known, rfl, rfl⟩⟩
  next connect =>
  rw [if_neg connect]
  split at done
  next subscribe =>
    obtain ⟨parsed, parse, done⟩ := Run.bind_ok.mp done
    rw [if_pos subscribe, parse, Run.ok_bind]
    cases parsed with
    | none =>
      cases done
      exact ⟨_, rfl, .inl ⟨rfl, rfl, rfl⟩⟩
    | some q =>
      cases done
      exact ⟨_, rfl, .inr ⟨rfl, rfl, w,
        [.serve (.subscribe q.2), .answer (buildSuback q.1 (q.2.map Prod.snd))], same, rfl, rfl⟩⟩
  next subscribe =>
  rw [if_neg subscribe]
  split at done
  next unsubscribe =>
    obtain ⟨parsed, parse, done⟩ := Run.bind_ok.mp done
    rw [if_pos unsubscribe, parse, Run.ok_bind]
    cases parsed with
    | none =>
      cases done
      exact ⟨_, rfl, .inl ⟨rfl, rfl, rfl⟩⟩
    | some q =>
      cases done
      exact ⟨_, rfl, .inr ⟨rfl, rfl, w,
        [.serve (.unsubscribe q.2), .answer (buildUnsuback q.1)], same, rfl, rfl⟩⟩
  next unsubscribe =>
  rw [if_neg unsubscribe]
  split at done
  next publish =>
    obtain ⟨parsed, parse, done⟩ := Run.bind_ok.mp done
    rw [if_pos publish, parse, Run.ok_bind]
    cases parsed with
    | none =>
      cases done
      exact ⟨_, rfl, .inl ⟨rfl, rfl, rfl⟩⟩
    | some q =>
      obtain ⟨topic, qos, pid, payload⟩ := q
      cases done
      cases pid with
      | none =>
        exact ⟨_, rfl, .inr ⟨rfl, rfl, w, [.serve (.publish topic payload)], same, rfl,
          by simp [Errand.actions]⟩⟩
      | some pid =>
        by_cases reliable : qos = 1
        · exact ⟨_, rfl, .inr ⟨rfl, rfl, w, [.answer (buildPuback pid), .serve (.publish topic payload)], same,
            by simp [reliable, World.errand, World.does], by simp [reliable, Errand.actions]⟩⟩
        · exact ⟨_, rfl, .inr ⟨rfl, rfl, w, [.serve (.publish topic payload)], same,
            by simp [reliable, World.errand, World.does],
            by simp [reliable, Errand.actions]⟩⟩
  next publish =>
  rw [if_neg publish]
  split at done
  next ping =>
    rw [if_pos ping]
    cases done
    exact ⟨_, rfl, .inr ⟨rfl, rfl, w, [.answer buildPingresp], same, rfl, rfl⟩⟩
  next ping =>
  rw [if_neg ping]
  split at done
  · cases done
    exact ⟨_, rfl, .inl ⟨rfl, rfl, rfl⟩⟩
  · cases done
    exact ⟨_, rfl, .inl ⟨rfl, rfl, rfl⟩⟩

/-- A reader thread behind its loop is done, and the connection is gone. -/
theorem Shows.returns (shows : Shows w p stage todo false) (found : w.connections.get? t = some c)
    (leaving : stage t = .leaving) (done : todo t = []) :
    ∃ q, p.Leads q ∧ Shows { w with connections := w.connections.erase t } q stage todo false := by
  obtain ⟨asked, reader⟩ := shows.readers t c found
  rw [leaving, done] at reader
  have returned : p.step (.read t []) = .ok (p.setReader t ⟨c.clientId, c.keepaliveS, .returned, [], asked⟩) := by
    simp only [step, reader]
  refine ⟨_, .turn _ returned, shows.broker, shows.tokens, shows.lock, ?_, ?_, ?_⟩
  · intro u d there
    simp only [HashMap.get?_erase] at there
    split at there
    · cases there
    next here =>
      rw [setReader_other _ _ _ _ here]
      exact shows.readers u d there
  · intro u d there
    simp only [HashMap.get?_erase] at there
    split at there
    · cases there
    · exact shows.lines u d there
  · intro u r there absent
    by_cases here : u = t
    · subst here
      rw [setReader_self] at there
      cases there
      rfl
    · rw [setReader_other _ _ _ _ here] at there
      simp only [HashMap.get?_erase, if_neg here] at absent
      exact shows.gone u r there absent

/-- The other reader threads wait while one has its turns. -/
theorem Shows.rests (shows : Shows w p (Function.update (fun _ => .serving) t .serving)
    (Function.update (fun _ => []) t []) false) : Rests w p := by
  have serving : Function.update (fun _ : Token => Stage.serving) t .serving = fun _ => .serving :=
    Function.update_eq_self t _
  have nothing : Function.update (fun _ : Token => ([] : List Action)) t [] = fun _ => [] :=
    Function.update_eq_self t _
  rwa [serving, nothing] at shows

theorem Shows.accept (rests : Rests w p) : ∃ q, p.Leads q ∧ Rests w.accept q := by
  refine ⟨_, .turn (.accept true) rfl, rests.broker, ?_, rests.lock, ?_, ?_, ?_⟩
  · simp only [if_true, Process.setReader, Process.setLine, World.accept, rests.tokens]
  · intro u d there
    simp only [World.accept, HashMap.get?_insert] at there
    split at there
    next here =>
      cases there
      refine ⟨[], ?_⟩
      simp [Process.setLine, Process.setReader, rests.tokens, here, Reader.start]
    next here =>
      obtain ⟨asked, reader⟩ := rests.readers u d there
      refine ⟨asked, ?_⟩
      simp [Process.setLine, Process.setReader, rests.tokens, here, reader]
  · intro u d there
    simp only [World.accept, HashMap.get?_insert] at there
    split at there
    next here =>
      cases there
      refine ⟨.start, ?_, rfl, rfl⟩
      simp [Process.setLine, Process.setReader, rests.tokens, here]
    next here =>
      obtain ⟨l, line, tx, waiting⟩ := rests.lines u d there
      refine ⟨l, ?_, tx, waiting⟩
      simp [Process.setLine, Process.setReader, rests.tokens, here, line]
  · intro u r there absent
    simp only [World.accept, HashMap.get?_insert] at absent
    split at absent
    · cases absent
    next here =>
      refine rests.gone u r ?_ absent
      simpa [Process.setLine, Process.setReader, rests.tokens, here] using there

theorem Shows.take (n : Nat) (rests : Rests w p) (found : w.connections.get? t = some c)
    (there : n ≤ c.tx.queue.length) : ∃ q, p.Leads q ∧ Rests (w.take t n) q := by
  have taken : w.take t n = w.setTx t c { c.tx with queue := c.tx.queue.drop n } := by
    simp only [World.take, found, World.setTx]
  rw [taken]
  clear taken
  induction n generalizing w p c with
  | zero =>
    refine ⟨p, .refl p, rests.congr rfl rfl fun k => ?_⟩
    simp only [World.setTx, HashMap.get?_insert]
    split
    next here => simp [here, found]
    next => rfl
  | succ n ih =>
    cases queued : c.tx.queue with
    | nil => simp [queued] at there
    | cons pkt queue =>
      rw [queued, List.length_cons] at there
      obtain ⟨q, leads, wrote⟩ := rests.write found queued
      obtain ⟨s, leads', rests'⟩ := ih wrote (HashMap.get?_insert_self _ _ _) (Nat.le_of_succ_le_succ there)
      exact ⟨s, leads.trans leads', by simpa [World.setTx] using rests'⟩

/-- The end of `handle_client`, when nobody else is there. -/
theorem Shows.close (shows : Shows w p (Function.update (fun _ => .serving) t .leaving)
    (Function.update (fun _ => []) t (Job.leave c.clientId).program) false) (reached : p.Reachable)
    (found : w.connections.get? t = some c) : ∃ q, p.Leads q ∧ Rests (w.close t) q := by
  have first : Function.update (fun _ => []) t (Job.leave c.clientId).program t =
      (Job.leave c.clientId).program ++ [] := by simp
  obtain ⟨q, leads, left, -⟩ := shows.job reached found (.leave c.clientId) first
  obtain ⟨s, leads', returned⟩ := left.returns found (Function.update_self _ _ _) (Function.update_self _ _ _)
  refine ⟨s, leads.trans leads', ?_⟩
  have closed : w.close t =
      { w.does t (.leave c.clientId) with connections := w.connections.erase t } := by
    simp only [World.close, found, Option.map_some, Option.getD_some, World.does]
  rw [closed]
  rw [Function.update_idem] at returned
  refine ⟨returned.broker, returned.tokens, returned.lock, ?_, returned.lines, returned.gone⟩
  intro u d there
  have other : u ≠ t := by
    rintro rfl
    simp at there
  obtain ⟨asked, reader⟩ := returned.readers u d there
  rw [Function.update_of_ne other, Function.update_of_ne other] at reader
  exact ⟨asked, reader⟩

theorem Shows.process {bytes : Bytes} {w' : World} (rests : Rests w p) (reached : p.Reachable)
    (found : w.connections.get? t = some c) (done : w.process t bytes = .ok w') :
    ∃ q, p.Leads q ∧ Rests w' q := by
  obtain ⟨asked, reader⟩ := rests.readers t c found
  have read : ∀ {r : Reader}, Reader.receive ⟨c.clientId, c.keepaliveS, .serving, [], asked⟩ bytes = r →
      p.Leads (p.setReader t r) := by
    rintro r rfl
    refine .turn (.read t bytes) ?_
    simp only [step, reader]
  -- `close`, from the packet that breaks the loop
  have breaks : ∀ {r : Reader},
      Reader.receive ⟨c.clientId, c.keepaliveS, .serving, [], asked⟩ bytes = r →
      r.clientId = c.clientId → r.keepaliveS = c.keepaliveS → r.stage = .leaving →
      r.todo = (Job.leave c.clientId).program → ∃ q, p.Leads q ∧ Rests (w.close t) q := by
    intro r received id keepalive leaving todo
    have same : w.Knows t ⟨r.clientId, r.keepaliveS, c.tx⟩ w := by
      refine ⟨rfl, rfl, fun k => ?_⟩
      rw [id, keepalive]
      split
      next here => rw [here, found]
      next => rfl
    have shown := Shows.read rests found r same
    rw [leaving, todo] at shown
    obtain ⟨q, leads, closed⟩ := shown.close ((read received).reachable reached) found
    exact ⟨q, (read received).trans leads, closed⟩
  obtain ⟨packet, arrived, done⟩ := Run.bind_ok.mp done
  cases packet with
  | none =>
    cases done
    have received : Reader.receive ⟨c.clientId, c.keepaliveS, .serving, [], asked⟩ bytes =
        { Reader.leave ⟨c.clientId, c.keepaliveS, .serving, [], asked⟩ with
          asked := asked ++ Action.jobs (Job.leave c.clientId).program } := by
      simp only [Reader.receive, Reader.round, arrived, Run.ok_bind, Run.pure_eq, Reader.leave]
    exact breaks received rfl rfl rfl rfl
  | some e =>
    obtain ⟨⟨v, serves⟩, handled, ended⟩ := Run.bind_ok.mp done
    obtain ⟨⟨id, keepalive, stage, todo, asked'⟩, handled', out⟩ :=
      handle_lockstep (r := ⟨c.clientId, c.keepaliveS, .serving, [], asked⟩) found rfl rfl handled
    rcases out with ⟨rfl, rfl, next⟩ | ⟨rfl, rfl, v', errands, knows, rfl, tasks⟩
    · cases ended
      rw [next] at handled'
      have received : Reader.receive ⟨c.clientId, c.keepaliveS, .serving, [], asked⟩ bytes =
          { Reader.leave ⟨c.clientId, c.keepaliveS, .serving, [], asked⟩ with
            asked := asked ++ Action.jobs (Job.leave c.clientId).program } := by
        simp only [Reader.receive, Reader.round, arrived, Run.ok_bind, handled', Reader.leave]
      exact breaks received rfl rfl rfl rfl
    · cases ended
      have received : Reader.receive ⟨c.clientId, c.keepaliveS, .serving, [], asked⟩ bytes =
          ⟨id, keepalive, .serving, todo, asked ++ Action.jobs todo⟩ := by
        simp only [Reader.receive, Reader.round, arrived, Run.ok_bind, handled']
      have shown := Shows.read rests found ⟨id, keepalive, .serving, todo, asked ++ Action.jobs todo⟩ knows
      obtain ⟨q, leads, rests'⟩ := Shows.errands errands shown ((read received).reachable reached)
        (by rw [knows.slots, if_pos rfl]) (by rw [Function.update_self]; exact tasks)
      rw [Function.update_idem] at rests'
      exact ⟨q, (read received).trans leads, rests'.rests⟩

theorem Shows.round {w' : World} (rests : Rests w p) (reached : p.Reachable) (round : w.Round w') :
    ∃ q, p.Leads q ∧ Rests w' q := by
  cases round with
  | accept => exact Shows.accept rests
  | take found there => exact Shows.take _ rests found there
  | process found done => exact Shows.process rests reached found done

/-- What the broker does when it handles one thing at a time, some order of its threads does as well. -/
theorem one_at_a_time (h : RandomState Token) :
    ∀ w, Relation.ReflTransGen World.Round (World.new h) w → ∃ p : Process, p.Reachable ∧ Rests w p := by
  intro w rounds
  induction rounds with
  | refl =>
    refine ⟨.new, ⟨.new, [], rfl, .nil⟩, rfl, rfl, rfl, ?_, ?_, ?_⟩
    · intro u c there
      simp [World.new] at there
    · intro u c there
      simp [World.new] at there
    · intro u r there
      cases there
  | tail _ round ih =>
    obtain ⟨p, reached, rests⟩ := ih
    obtain ⟨q, leads, rests'⟩ := Shows.round rests reached round
    exact ⟨q, leads.reachable reached, rests'⟩

/-- A connection that subscribes. -/
theorem one_at_a_time_subscribe : ∃ (w : World) (p : Process), w.broker.subs.length = 1 ∧ p.Reachable ∧
    Rests w p := by
  have passed : (((World.new default).accept).process 1 [0x82, 6, 0, 1, 0, 1, 97, 0]).toOption.any
      (fun w => w.broker.subs.length == 1) = true := by decide +kernel
  obtain ⟨w, done, one⟩ := (Option.any_eq_true _ _).mp passed
  cases processed : ((World.new default).accept).process 1 [0x82, 6, 0, 1, 0, 1, 97, 0] with
  | error e =>
    rw [processed] at done
    cases done
  | ok w' =>
    rw [processed] at done
    cases done
    have found : ((World.new default).accept).connections.get? 1 = some ⟨.empty, 0, .new⟩ :=
      HashMap.get?_insert_self _ _ _
    obtain ⟨p, reached, rests⟩ := one_at_a_time default w
      ((Relation.ReflTransGen.single .accept).tail (.process found processed))
    exact ⟨w, p, by simpa using one, reached, rests⟩

end Process
end MioBroker.Threaded
