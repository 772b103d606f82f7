import MioBroker.Codec
import MioBroker.Truncated
import MioBroker.Scenario

/-!
# A save that does not end

`std::fs::write` empties the file and then fills it. A process that dies in between leaves a prefix
of the new contents, and nothing of the old ones.
-/
namespace MioBroker

open Rust Decoder

/-- What a state file holds behind magic and version. -/
theorem serializeState_header (retained : HashMap Str (Bytes × UInt8))
    (sessions : HashMap Str SessionState) : serializeState retained sessions =
      (STATE_MAGIC ++ [STATE_VERSION]) ++ (pushU16 retained.size ++
        (retained.iter.flatMap (fun e => pushMessage e.1 e.2.1 e.2.2) ++
          (pushU16 sessions.size ++ sessions.iter.flatMap fun e => pushSession e.1 e.2))) := by
  simp only [serializeState, List.append_assoc]

/-- Of a file that ends early nothing is read. -/
theorem deserialize_torn (h : Hashers) {retained : HashMap Str (Bytes × UInt8)}
    {sessions : HashMap Str SessionState} (fits : StateFits retained sessions) {torn : Bytes}
    (start : torn <+: serializeState retained sessions)
    (early : torn ≠ serializeState retained sessions) : deserializeState h torn = none := by
  obtain ⟨more, whole⟩ := start
  have missing : more ≠ [] := by
    rintro rfl
    exact early (by rw [← whole, List.append_nil])
  rw [serializeState_header] at whole
  exact Reader.deserializeState_answer
    (Reader.deserializeState_torn h (takeState_reads h fits) whole missing)

namespace Broker

/-- The state file a process leaves that dies while it saves, after `torn` has been written. -/
def interrupted (b : Broker) (torn : Bytes) : StateFile :=
  ({ b with stateFile := { b.stateFile with fault := some (some torn) } } : Broker).save.stateFile

/-- The next process, for which writing works again. -/
def restarted (h : Hashers) (now : Instant) (file : StateFile) : Broker :=
  (Broker.new h now { file with fault := none }).loadState h

/-- What the next process has in its tables: what it reads, and nothing when it reads nothing. -/
theorem restarted_tables {b : Broker} (saving : b.dirty = true) (torn : Bytes) (h : Hashers)
    (now : Instant) :
    (restarted h now (b.interrupted torn)).retained =
        ((deserializeState h torn).map Prod.fst).getD (.new h.retained) ∧
      (restarted h now (b.interrupted torn)).sessions =
        ((deserializeState h torn).map Prod.snd).getD (.new h.sessions) := by
  have content : (b.interrupted torn).content = some torn := by
    simp [interrupted, save, saving]
  simp only [restarted, loadState, new, content]
  cases deserializeState h torn <;> exact ⟨rfl, rfl⟩

end Broker

/-- A save that is interrupted anywhere: the next process has the new tables if all of them were
written, and starts with empty ones otherwise; its first save overwrites the file with what it has. -/
theorem interrupted_save (b : Broker) (saving : b.dirty = true)
    (fits : StateFits b.retained b.sessions) (torn : Bytes)
    (start : torn <+: serializeState b.retained b.sessions) (h : Hashers) (now : Instant) :
    let c := Broker.restarted h now (b.interrupted torn)
    (torn = serializeState b.retained b.sessions →
      c.retained.Equiv b.retained ∧ c.sessions.Equiv b.sessions) ∧
    (torn ≠ serializeState b.retained b.sessions →
      c.retained.isEmpty = true ∧ c.sessions.isEmpty = true) ∧
    c.dirty = true ∧ c.save.stateFile.content = some (serializeState c.retained c.sessions) := by
  intro c
  obtain ⟨retained_eq, sessions_eq⟩ : c.retained = _ ∧ c.sessions = _ :=
    Broker.restarted_tables saving torn h now
  refine ⟨?_, ?_, rfl, ?_⟩
  · rintro rfl
    rw [retained_eq, sessions_eq, deserializeState_serialize h fits]
    exact ⟨insertAll_equiv b.retained h.retained, insertAll_equiv b.sessions h.sessions⟩
  · -- Any proper prefix fails to parse as a whole, and the tables stay empty.
    intro early
    rw [retained_eq, sessions_eq, deserialize_torn h fits start early]
    exact ⟨rfl, rfl⟩
  · obtain ⟨retained, sessions, frame⟩ :=
      (Broker.new h now { b.interrupted torn with fault := none }).loadState_frame h
    rw [show c = _ from frame]
    rfl

/-- The tables with one retained message. -/
def oneRetained (payload : UInt8) : HashMap Str (Bytes × UInt8) :=
  (HashMap.new default).insert (.fromUtf8Lossy [116]) ([payload], 0)

/-- The save of a second retained message ends within its first entry. -/
theorem interrupted_save_one : ∃ b : Broker, b.dirty = true ∧
    (Broker.restarted ⟨default, default, default, default⟩ 0
      (b.interrupted ((serializeState b.retained b.sessions).take 15))).retained.isEmpty = true := by
  obtain ⟨b, set⟩ : ∃ b : Broker, b = { Broker.new ⟨default, default, default, default⟩ 0 ⟨none, none⟩ with
    retained := oneRetained 2, dirty := true } := ⟨_, rfl⟩
  have fits : StateFits b.retained b.sessions := by
    subst set
    refine ⟨by decide, fun topic payload qos found => ?_, by decide, fun cid sess found => ?_⟩
    · simp only [oneRetained, HashMap.get?_insert] at found
      split at found
      next same =>
        cases found
        exact ⟨same ▸ by decide, by decide, by decide⟩
      next => simp at found
    · simp [Broker.new] at found
  refine ⟨b, by rw [set], ?_⟩
  refine ((interrupted_save b (by rw [set]) fits _ (List.take_prefix _ _) _ 0).2.1 ?_).1
  subst set
  decide

namespace Loop

/-- A client publishes a retained message, which is saved, and then another one, which is due to be
saved. -/
def replacing : List Io :=
  [Io.listen, .connection] ++ List.replicate 3 Io.quiet ++
    [Io.read (connectBytes 2 97 ++ [0x31, 4, 0, 1, 116, 1]), .tick (millis 200) none] ++
    List.replicate 14 Io.quiet ++ [Io.read [0x31, 4, 0, 1, 116, 2]] ++ List.replicate 8 Io.quiet

/-- The process dies before it has written a byte of the second one: the first one is lost, too. -/
theorem interrupted_save_loses : ¬∀ s : Loop, s.Reachable → s.broker.dirty = true →
    ∀ retained sessions, s.broker.stateFile.content = some (serializeState retained sessions) →
    ∀ torn, torn <+: serializeState s.broker.retained s.broker.sessions → ∀ h now,
      let c := Broker.restarted h now (s.broker.interrupted torn)
      (c.retained.Equiv retained ∧ c.sessions.Equiv sessions) ∨
        (c.retained.Equiv s.broker.retained ∧ c.sessions.Equiv s.broker.sessions) := by
  intro claim
  obtain ⟨s, done, checked⟩ := exists_after replacing (fun s => s.broker.dirty &&
    decide (s.broker.stateFile.content = some (serializeState (oneRetained 1) (.new default))) &&
    s.broker.retained.contains (.fromUtf8Lossy [116])) (by decide +kernel)
  simp only [Bool.and_eq_true, decide_eq_true_eq] at checked
  obtain ⟨⟨saving, content⟩, held⟩ := checked
  have tables := Broker.restarted_tables saving [] ⟨default, default, default, default⟩ 0
  -- An empty file loads as neither the old tables nor the new ones.
  rcases claim s (after_reachable done) saving (oneRetained 1) (.new default) content []
    List.nil_prefix _ 0 with ⟨old, -⟩ | ⟨fresh, -⟩
  · have there := old (.fromUtf8Lossy [116])
    rw [tables.1] at there
    cases there
  · obtain ⟨m, found⟩ := (HashMap.contains_iff _ _).mp held
    have there := fresh (.fromUtf8Lossy [116])
    rw [tables.1, found] at there
    cases there

end Loop

end MioBroker
