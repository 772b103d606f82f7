import MioBroker.Retained
import MioBroker.Saved
import MioBroker.Deadlines

/-!
# The timers of the loop

The state file is written and the `$SYS` topics are published by the clock of the loop. Nothing else
touches the clock, so both are done again and again, however busy the connections are.
-/
namespace MioBroker

open Rust

namespace Broker

/-- The file and the times of the last save and the last `$SYS` publish are left alone. -/
structure SameTimers (b b' : Broker) : Prop where
  file : b'.stateFile = b.stateFile
  saved : b'.lastSave = b.lastSave
  published : b'.sysLastPublish = b.sysLastPublish

namespace SameTimers

theorem refl (b : Broker) : SameTimers b b := ⟨rfl, rfl, rfl⟩

theorem trans {a b c : Broker} (first : SameTimers a b) (second : SameTimers b c) : SameTimers a c :=
  ⟨second.file.trans first.file, second.saved.trans first.saved, second.published.trans first.published⟩

end SameTimers

variable {b b' : Broker} {t : Token} {p : Packet} {reply : Reply}

theorem sameTimers_modifyClient {f : Client → Client} (done : b.modifyClient t f = .ok b') :
    SameTimers b b' := by
  obtain ⟨c, -, rfl⟩ := modifyClient_found done
  exact ⟨rfl, rfl, rfl⟩

theorem sameTimers_deliverEach (retain : Bool) (msgs : List (Str × Bytes × UInt8)) (b : Broker) :
    SameTimers b (deliverEach t retain msgs b).1 := by
  obtain ⟨_, _, _, same⟩ := deliverEach_frame t retain msgs b
  rw [same]
  exact ⟨rfl, rfl, rfl⟩

theorem sameTimers_eraseSession (b : Broker) (cid : Str) : SameTimers b (b.eraseSession cid) := by
  obtain ⟨_, same⟩ := b.eraseSession_frame cid
  rw [same]
  exact ⟨rfl, rfl, rfl⟩

theorem sameTimers_publish {topic : Str} {payload : Bytes} {srcQos : UInt8} {retain : Bool} {n : Nat × Nat}
    (indexed : b.Indexed) (done : b.publish topic payload srcQos retain = .ok (b', n)) : SameTimers b b' := by
  rw [(publish_ok indexed done).frame]
  exact ⟨rfl, rfl, rfl⟩

theorem sameTimers_handleAck {body : Bytes} {bad : String} {f : Client → UInt16 → Client}
    (done : b.handleAck t body bad f = .ok (b', reply)) : SameTimers b b' := by
  simp only [handleAck] at done
  split at done
  · obtain ⟨pid, -, done⟩ := Run.bind_ok.mp done
    obtain ⟨d, modified, done⟩ := Run.bind_ok.mp done
    cases done
    exact sameTimers_modifyClient modified
  · cases done
    exact .refl b

theorem sameTimers_handleConnect {body : Bytes} (done : b.handleConnect t body = .ok (b', reply)) :
    SameTimers b b' := by
  obtain ⟨parsed, -, done⟩ := Run.bind_ok.mp done
  cases parsed with
  | none =>
    cases done
    exact .refl b
  | some q =>
    simp only at done
    obtain ⟨d, modified, done⟩ := Run.bind_ok.mp done
    have prepared : SameTimers b d := by
      refine .trans ?_ (sameTimers_modifyClient modified)
      split
      · exact b.sameTimers_eraseSession q.cid
      · split
        · obtain ⟨_, _, same⟩ := restoreSubs_frame _ b t
          rw [same]
          exact ⟨rfl, rfl, rfl⟩
        · exact .refl b
    have flushed : SameTimers d (d.flushSession t q.cid).1 := by
      simp only [flushSession]
      split
      next sess there =>
        have each := sameTimers_deliverEach (t := t) false (flushList sess) d
        split
        next e delivered =>
          rw [delivered] at each
          exact each.trans (e.sameTimers_eraseSession q.cid)
        next e delivered =>
          rw [delivered] at each
          exact each
      next => exact d.sameTimers_eraseSession q.cid
    split at done
    · cases done
      exact ⟨prepared.file, prepared.saved, prepared.published⟩
    · split at done
      next e resumed =>
        rw [resumed] at flushed
        cases done
        have both := prepared.trans flushed
        exact ⟨both.file, both.saved, both.published⟩
      next e failed resumed =>
        rw [resumed] at flushed
        cases done
        exact prepared.trans flushed

theorem sameTimers_subscribeLoop (topics : List (Str × UInt8)) (b : Broker) :
    SameTimers b (subscribeLoop t topics b).1 := by
  induction topics generalizing b with
  | nil => exact .refl b
  | cons e topics ih =>
    obtain ⟨_, _, added⟩ := b.addSub_frame e.1 t e.2
    have first : SameTimers b (b.addSub e.1 t e.2) := by
      rw [added]
      exact ⟨rfl, rfl, rfl⟩
    have each := sameTimers_deliverEach (t := t) true ((b.addSub e.1 t e.2).retainedHits e.1 e.2)
      (b.addSub e.1 t e.2)
    simp only [subscribeLoop]
    split
    next d delivered =>
      rw [delivered] at each
      exact (first.trans each).trans (ih d)
    next d delivered =>
      rw [delivered] at each
      exact first.trans each

theorem sameTimers_handlePublish {flags : UInt8} {body : Bytes} (indexed : b.Indexed)
    (done : b.handlePublish t flags body = .ok (b', reply)) : SameTimers b b' := by
  simp only [handlePublish] at done
  split at done
  · simp only [publishFast] at done
    split at done
    · obtain ⟨parsed, -, done⟩ := Run.bind_ok.mp done
      cases parsed with
      | none =>
        cases done
        exact .refl b
      | some pid =>
        obtain ⟨d, modified, done⟩ := Run.bind_ok.mp done
        cases done
        have first := sameTimers_modifyClient modified
        exact ⟨first.file, first.saved, first.published⟩
    · split at done
      · obtain ⟨parsed, -, done⟩ := Run.bind_ok.mp done
        cases parsed with
        | none =>
          cases done
          exact .refl b
        | some pid =>
          obtain ⟨⟨d, dup⟩, received, done⟩ := Run.bind_ok.mp done
          cases done
          have first := sameTimers_modifyClient (receiveQos2_found received)
          cases dup
          · exact ⟨first.file, first.saved, first.published⟩
          · exact first
      · cases done
        exact ⟨rfl, rfl, rfl⟩
  · obtain ⟨parsed, -, done⟩ := Run.bind_ok.mp done
    cases parsed with
    | none =>
      cases done
      exact .refl b
    | some q =>
      obtain ⟨⟨d, dup⟩, acked, done⟩ := Run.bind_ok.mp done
      have both : SameTimers b d ∧ d.Indexed := by
        rcases acknowledge_cases acked with rfl | ⟨pid, -, answered⟩ | ⟨pid, -, received⟩
        · exact ⟨.refl d, indexed⟩
        · obtain ⟨c, -, rfl⟩ := modifyClient_found answered
          exact ⟨⟨rfl, rfl, rfl⟩, indexed⟩
        · obtain ⟨c, -, rfl⟩ := modifyClient_found received
          exact ⟨⟨rfl, rfl, rfl⟩, indexed⟩
      cases dup with
      | true =>
        cases done
        exact both.1
      | false =>
        obtain ⟨⟨e, n⟩, published, done⟩ := Run.bind_ok.mp done
        cases done
        have all := both.1.trans (sameTimers_publish both.2 published)
        exact ⟨all.file, all.saved, all.published⟩

/-- A packet leaves file and timers alone. -/
theorem sameTimers_dispatch (indexed : b.Indexed) (done : b.dispatch t p = .ok (b', reply)) :
    SameTimers b b' := by
  simp only [dispatch] at done
  split at done
  · exact sameTimers_handleConnect done
  split at done
  · obtain ⟨parsed, -, done⟩ := Run.bind_ok.mp done
    cases parsed with
    | none =>
      cases done
      exact .refl b
    | some q =>
      have loop := sameTimers_subscribeLoop (t := t) q.2 b
      simp only at done
      split at done
      next d subscribed =>
        rw [subscribed] at loop
        obtain ⟨e, modified, done⟩ := Run.bind_ok.mp done
        cases done
        exact loop.trans (sameTimers_modifyClient modified)
      next d failed subscribed =>
        rw [subscribed] at loop
        cases done
        exact loop
  split at done
  · obtain ⟨parsed, -, done⟩ := Run.bind_ok.mp done
    cases parsed with
    | none =>
      cases done
      exact .refl b
    | some q =>
      obtain ⟨e, modified, done⟩ := Run.bind_ok.mp done
      cases done
      obtain ⟨_, _, same⟩ := b.unsubscribe_frame t q.2
      have first : SameTimers b (b.unsubscribe t q.2) := by
        rw [same]
        exact ⟨rfl, rfl, rfl⟩
      exact first.trans (sameTimers_modifyClient modified)
  split at done
  · exact sameTimers_handlePublish indexed done
  split at done
  · exact sameTimers_handleAck done
  split at done
  · exact sameTimers_handleAck done
  split at done
  · exact sameTimers_handleAck done
  split at done
  · exact sameTimers_handleAck done
  split at done
  · obtain ⟨e, modified, done⟩ := Run.bind_ok.mp done
    cases done
    exact sameTimers_modifyClient modified
  split at done
  · obtain ⟨e, modified, done⟩ := Run.bind_ok.mp done
    cases done
    exact sameTimers_modifyClient modified
  · cases done
    exact .refl b

/-- What a removal does before it saves. -/
theorem removeClient_saves (indexed : b.Indexed) (done : b.removeClient t = .ok b') :
    ∃ d : Broker, SameTimers b d ∧ b' = d.save := by
  rw [removeClient_eq] at done
  obtain ⟨d, willed, done⟩ := Run.bind_ok.mp done
  obtain ⟨e, persisted, done⟩ := Run.bind_ok.mp done
  cases done
  refine ⟨e.dropClient t, ?_, rfl⟩
  have first : SameTimers b d := by
    rw [afterWill] at willed
    split at willed
    · rw [publishLwt] at willed
      split at willed
      next w set =>
        obtain ⟨⟨f, n⟩, published, same⟩ := Run.bind_ok.mp willed
        cases same
        have sent := sameTimers_publish (b := { b with willLog := b.willLog ++ [(t, w)] }) indexed published
        exact ⟨sent.file, sent.saved, sent.published⟩
      next =>
        cases willed
        exact .refl b
    · cases willed
      exact .refl b
  have second : SameTimers d e := by
    obtain ⟨_, _, rfl⟩ := persistSession_frame d e t persisted
    exact ⟨rfl, rfl, rfl⟩
  have third : SameTimers e (e.dropClient t) := by
    obtain ⟨_, _, same⟩ := e.dropClient_frame t
    rw [same]
    exact ⟨rfl, rfl, rfl⟩
  exact (first.trans second).trans third

theorem sameTimers_receive {r : ReadResult} {out : Outcome} (done : b.receive t r = .ok (b', out)) :
    SameTimers b b' := by
  obtain ⟨⟨d, data⟩, first, done⟩ := Run.bind_ok.mp done
  have read : SameTimers b d := by
    obtain ⟨c, -, first⟩ := Run.bind_ok.mp first
    split at first <;> cases first <;> exact ⟨rfl, rfl, rfl⟩
  split at done
  next e more =>
    cases more
    obtain ⟨⟨f, batch⟩, second, done⟩ := Run.bind_ok.mp done
    have begun : SameTimers d f := by
      simp only [beginBatch] at second
      obtain ⟨c, -, second⟩ := Run.bind_ok.mp second
      split at second
      · cases second
        exact .refl d
      · split at second <;> cases second <;> exact ⟨rfl, rfl, rfl⟩
    split at done
    next e' pkts same =>
      cases same
      cases done
      exact read.trans begun
    next e' failed same =>
      cases same
      cases done
      exact read.trans begun
  next e same =>
    cases same
    cases done
    exact read
  next e same =>
    cases same
    cases done
    exact read

end Broker

theorem Broker.fault_save (b : Broker) : b.save.stateFile.fault = b.stateFile.fault := by
  rw [save]
  split
  · rfl
  · split <;> rfl

/-- What an operation does to the timers: only `sysPublished` starts the one, only a save the other. -/
structure Op.Times (op : Op) (b b' : Broker) : Prop where
  published : op ≠ .sysPublished → b'.sysLastPublish = b.sysLastPublish
  saved : b'.lastSave = b.lastSave ∨
    ∃ d : Broker, d.lastSave = b.lastSave ∧ d.stateFile.fault = b.stateFile.fault ∧ b' = d.save
  /-- the environment decides when the file cannot be written -/
  fault : (∀ dt fault, op ≠ .tick dt fault) → b'.stateFile.fault = b.stateFile.fault

theorem Op.timers {op : Op} {b b' : Broker} {out : Outcome} (indexed : b.Indexed)
    (done : op.run b = .ok (b', out)) :
    op.Times b b' := by
  have untouched : Broker.SameTimers b b' → op.Times b b' := fun same =>
    ⟨fun _ => same.published, .inl same.saved, fun _ => by rw [same.file]⟩
  have saves : ∀ d : Broker, Broker.SameTimers b d → b' = d.save → op.Times b b' := by
    intro d same saved
    refine ⟨fun _ => ?_, .inr ⟨d, same.saved, by rw [same.file], saved⟩, fun _ => ?_⟩
    · obtain ⟨_, _, _, frame⟩ := d.save_frame
      rw [saved, frame]
      exact same.published
    · rw [saved, Broker.fault_save, same.file]
  cases op with
  | receive t r => exact untouched (Broker.sameTimers_receive done)
  | packet t p =>
    obtain ⟨⟨d, reply⟩, dispatched, done⟩ := Run.bind_ok.mp done
    have same := Broker.sameTimers_dispatch indexed dispatched
    cases reply <;>
    · cases done
      exact untouched same
  | remove t =>
    obtain ⟨d, removed, done⟩ := Run.bind_ok.mp done
    cases done
    obtain ⟨e, same, saved⟩ := Broker.removeClient_saves indexed removed
    exact saves e same saved
  | flush t ws =>
    obtain ⟨d, flushed, done⟩ := Run.bind_ok.mp done
    cases done
    simp only [Broker.flushWrites] at flushed
    obtain ⟨c, -, flushed⟩ := Run.bind_ok.mp flushed
    split at flushed
    · have indexed' : Broker.Indexed { b with clients := b.clients.insert t (c.writeLoop ws).1 } := indexed
      obtain ⟨e, same, saved⟩ := Broker.removeClient_saves indexed' flushed
      exact saves e ⟨same.file, same.saved, same.published⟩ saved
    · cases flushed
      exact untouched ⟨rfl, rfl, rfl⟩
  | publish topic payload qos retain =>
    obtain ⟨⟨d, n⟩, published, done⟩ := Run.bind_ok.mp done
    cases done
    exact untouched (Broker.sameTimers_publish indexed published)
  | quiesce t =>
    cases done
    simp only [Broker.quiesce] at untouched ⊢
    split at untouched
    · exact untouched ⟨rfl, rfl, rfl⟩
    · exact untouched ⟨rfl, rfl, rfl⟩
  | retry t pid pkt now =>
    simp only [Op.run, Broker.retry, Run.pure_eq, Except.ok.injEq] at done
    split at done
    · split at done <;>
      · cases done
        exact untouched ⟨rfl, rfl, rfl⟩
    · cases done
      exact untouched (.refl b)
  | sysPublished =>
    cases done
    exact ⟨fun other => absurd rfl other, .inl rfl, fun _ => rfl⟩
  | save =>
    cases done
    exact saves b (.refl b) rfl
  | tick dt fault =>
    cases done
    exact ⟨fun _ => rfl, .inl rfl, fun other => absurd rfl (other dt fault)⟩
  | _ =>
    cases done
    exact untouched ⟨rfl, rfl, rfl⟩

namespace Broker

/-- The file holds the tables as they are. -/
def OnFile (b : Broker) : Prop := b.stateFile.content = some (serializeState b.retained b.sessions)

/-- The topics differ, and none of them is cleared. -/
theorem sysTopics_distinct (b : Broker) : (b.sysTopics.map Prod.fst).Nodup ∧ ∀ e ∈ b.sysTopics, e.2 ≠ [] := by
  refine ⟨?_, fun e member => ?_⟩
  · simp only [sysTopics, List.map_cons, List.map_nil]
    decide +kernel
  · have digits : ∀ n, decimal n ≠ [] := fun n => by simp [decimal]
    simp only [sysTopics, List.map_cons, List.map_nil, List.mem_cons, List.not_mem_nil, or_false] at member
    rcases member with rfl | rfl | rfl | rfl | rfl | rfl | rfl | rfl | rfl
    · decide
    all_goals exact digits _
/-- A save that may write leaves the tables on file, or there was nothing to save. -/
theorem save_onFile {b : Broker} (writable : b.stateFile.fault = none) :
    b.save.OnFile ∨ b.dirty = false ∧ b.save = b := by
  rw [save]
  split
  next clean => exact .inr ⟨by simpa using clean, rfl⟩
  next dirty =>
    split
    · exact .inl rfl
    next left fault => cases writable.symm.trans fault

end Broker

/-- The last step of its part of a round. -/
def Pc.Last : Pc → Prop
  | .events todo => todo = []
  | .writable _ _ _ => False
  | .packets _ _ _ _ _ => False
  | .close _ _ => False
  | .flushPending todo _ => todo = []
  | .sweep todo _ => todo = []
  | .flushForwards todo _ => todo = []
  | .sysPublish todo _ => todo = []
  | .reap todo _ => todo = []
  | .retry todo _ => todo = []
  | .giveUp todo => todo = []
  | _ => True

namespace Loop

variable {s s' : Loop} {io : Io}

theorem Reachable.saved (reached : s.Reachable) : s.broker.Saved := by
  refine (Machine.Reaches.invariant (fun s => s.broker.Healthy ∧ s.broker.Saved) ?_ ?_ reached).2
  · rintro s ⟨h, now, file, retryAfter, rfl⟩
    exact ⟨Broker.healthy_startup h now file, fun down => by cases down⟩
  · rintro s io s' ⟨healthy, saved⟩ - done
    obtain ⟨b, out, ran, rfl⟩ := step_ok.mp done
    exact ⟨healthy.op _ ran, saved.op healthy ran⟩

/-- A part of a round is left at its end. -/
theorem stage_kept (formed : s.pc.Formed) (done : s.step io = .ok s') :
    s'.pc.stage = s.pc.stage ∨ s.pc.Last ∧ ∃ os, io = .go os := by
  obtain ⟨b, out, -, rfl⟩ := step_ok.mp done
  cases io with
  | tick dt fault => exact .inl rfl
  | go os =>
    have received : ∀ t next failed, failed.stage = s.pc.stage →
        (afterReceive t next failed out).stage = s.pc.stage := by
      intro t next failed same
      cases out with
      | ok pkts => exact same
      | error _ => exact same
    simp only [pcAfter]
    cases here : s.pc with
    | events todo =>
      rw [here] at received
      cases todo with
      | nil => exact .inr ⟨rfl, os, rfl⟩
      | cons e todo =>
        refine .inl ?_
        cases e with
        | listener =>
          simp only [next, here]
          split <;> rfl
        | client t readable writable =>
          simp only [next, here]
          split
          · exact received _ _ _ rfl
          · rfl
    | writable t writable todo => exact .inl (by simp only [next, here]; rfl)
    | packets t todo n next' failed =>
      rw [here] at formed
      refine .inl ?_
      cases todo with
      | nil =>
        simp only [next, here]
        rcases formed with ⟨writable, rest, rfl, rfl⟩ | ⟨rest, scan, rfl, rfl⟩ <;> rfl
      | cons p todo =>
        simp only [next, here]
        cases out <;> rfl
    | close t next' => exact .inl (by simp only [next, here]; rfl)
    | sweep todo scan =>
      rw [here] at received
      cases todo with
      | nil => exact .inr ⟨rfl, os, rfl⟩
      | cons t todo =>
        refine .inl ?_
        simp only [next, here]
        split
        · exact received _ _ _ rfl
        · rfl
    | retry todo scan =>
      cases todo with
      | nil => exact .inr ⟨rfl, os, rfl⟩
      | cons e todo =>
        refine .inl ?_
        simp only [next, here]
        split <;> rfl
    | flushPending todo scan =>
      cases todo with
      | nil => exact .inr ⟨rfl, os, rfl⟩
      | cons t todo => exact .inl (by simp only [next, here]; rfl)
    | flushForwards todo scan =>
      cases todo with
      | nil => exact .inr ⟨rfl, os, rfl⟩
      | cons t todo => exact .inl (by simp only [next, here]; rfl)
    | sysPublish todo scan =>
      cases todo with
      | nil => exact .inr ⟨rfl, os, rfl⟩
      | cons e todo => exact .inl (by simp only [next, here]; rfl)
    | reap todo scan =>
      cases todo with
      | nil => exact .inr ⟨rfl, os, rfl⟩
      | cons t todo => exact .inl (by simp only [next, here]; rfl)
    | giveUp todo =>
      cases todo with
      | nil => exact .inr ⟨rfl, os, rfl⟩
      | cons e todo => exact .inl (by simp only [next, here]; rfl)
    | _ => exact .inr ⟨trivial, os, rfl⟩

/-- A round ends with the save. -/
theorem saves_before_poll (formed : s.pc.Formed) (done : s.step io = .ok s') (busy : s.pc.stage ≠ 0)
    (ended : s'.pc.stage = 0) : s.pc = .save ∧ ∃ os, io = .go os := by
  rcases stage_kept formed done with same | ⟨last, os, rfl⟩
  · exact absurd (same.symm.trans ended) busy
  · refine ⟨?_, os, rfl⟩
    obtain ⟨b, out, -, rfl⟩ := step_ok.mp done
    simp only [pcAfter] at ended
    cases here : s.pc with
    | save => rfl
    | poll => simp [here, Pc.stage] at busy
    | writable t writable todo => simp [here, Pc.Last] at last
    | packets t todo n next' failed => simp [here, Pc.Last] at last
    | close t next' => simp [here, Pc.Last] at last
    | sysTopics scan =>
      simp only [next, here] at ended
      split at ended <;> cases ended
    | _ =>
      rw [here] at last
      cases last
      simp only [next, here] at ended
      cases ended

/-- Whatever is changed is on file in the end, if the file can be written and time goes on. -/
theorem changes_saved (state : Nat → Loop) (input : Nat → Io) (reached : (state 0).Reachable)
    (run : Machine.Endless step (fun s io => s.admits io = true) state input)
    (often : ∀ n, ∃ m ≥ n, (state m).Works (input m)) (passes : ∀ τ, ∃ m, τ ≤ (state m).broker.now)
    (n : Nat) (writable : ∀ m ≥ n, (state m).broker.stateFile.fault = none) :
    ∃ m ≥ n, (state m).broker.stateFile.content =
      some (serializeState (state m).broker.retained (state m).broker.sessions) := by
  by_contra never
  have unsaved : ∀ m ≥ n, ¬(state m).broker.OnFile := fun m le saved => never ⟨m, le, saved⟩
  -- Then the flag stays up, and the time of the last save is what it is.
  have dirty : ∀ m ≥ n, (state m).broker.dirty = true := by
    intro m le
    cases flag : (state m).broker.dirty with
    | true => rfl
    | false => exact absurd (Reachable.saved (run.reaches reached m) flag) (unsaved m le)
  have since : ∀ m, n ≤ m → (state m).broker.lastSave = (state n).broker.lastSave := by
    intro m le
    induction m, le using Nat.le_induction with
    | base => rfl
    | succ m le ih =>
      obtain ⟨b, out, ran, same⟩ := step_ok.mp (run.next m)
      have unsaved' := unsaved (m + 1) (Nat.le_succ_of_le le)
      rw [same] at unsaved' ⊢
      refine Eq.trans ?_ ih
      rcases (Op.timers (Reachable.healthy (run.reaches reached m)).indexed ran).saved with
        kept | ⟨d, kept, fault, rfl⟩
      · exact kept
      · rcases Broker.save_onFile (fault.trans (writable m le)) with saved | ⟨-, idle⟩
        · exact absurd saved unsaved'
        · exact (congrArg Broker.lastSave idle).trans kept
  obtain ⟨a, late⟩ := passes ((state n).broker.lastSave + millis 200)
  obtain ⟨m, k, after, before, scanned, ended⟩ := rounds_again reached run often (max n a)
  have begun : (state m).pc.stage ≠ 0 := by simp [show (state m).pc = _ from scanned, Pc.stage]
  obtain ⟨j, from_m, -, busy, idle⟩ := Machine.crosses (fun j => (state j).pc.stage ≠ 0) before begun
    (by simp [ended, Pc.stage])
  obtain ⟨here, os, given⟩ := saves_before_poll (Reachable.formed (run.reaches reached j)) (run.next j) busy
    (not_not.mp idle)
  have from_n : n ≤ j := Nat.le_trans (Nat.le_trans (Nat.le_max_left n a) after) from_m
  have from_a : a ≤ j := Nat.le_trans (Nat.le_trans (Nat.le_max_right n a) after) from_m
  have due : millis 200 ≤ (state j).broker.now - (state j).broker.lastSave := by
    rw [since j from_n]
    exact Nat.le_sub_of_add_le' (Nat.le_trans late (now_le_of_le reached run from_a))
  obtain ⟨b, out, ran, same⟩ := step_ok.mp (run.next j)
  have saves : (state j).op (input j) = .save := by
    simp only [given, op, next, here, dirty j from_n, Bool.true_and, decide_eq_true_eq, ge_iff_le, if_pos due]
  rw [saves] at ran
  cases ran
  have saved := unsaved (j + 1) (Nat.le_succ_of_le from_n)
  rw [same] at saved
  rcases Broker.save_onFile (writable j from_n) with onFile | ⟨clean, -⟩
  · exact saved onFile
  · cases (dirty j from_n).symm.trans clean

theorem lulled_writable (silent : s.Silent) (writable : s.broker.stateFile.fault = none) (n : Nat) :
    (s.lulled n).broker.stateFile.fault = none := by
  induction n with
  | zero => exact writable
  | succ n ih =>
    obtain ⟨here, done⟩ := silent.lulled n
    obtain ⟨b, out, ran, same⟩ := step_ok.mp done
    rw [same]
    rw [lull] at ran
    split at ran
    · cases ran
      rfl
    · refine ((Op.timers here.healthy.indexed ran).fault fun dt fault waits => ?_).trans ih
      have answer := (s.lulled n).op_given { Os.quiet with writes := [.ok 65536] }
      rw [show (s.lulled n).op (.go _) = .tick dt fault from waits] at answer
      exact answer

/-- A retained message. -/
theorem changes_saved_lulled : ∃ (state : Nat → Loop), (state 0).Reachable ∧
    (state 0).broker.stateFile.content = none ∧ ∃ m ≥ 0, (state m).broker.stateFile.content =
      some (serializeState (state m).broker.retained (state m).broker.sessions) := by
  obtain ⟨s, reached, silent, checked⟩ := exists_silent
    ([Io.listen, .connection] ++ List.replicate 3 Io.quiet ++
      [Io.read (connectBytes 2 97 ++ [0x31, 4, 0, 1, 116, 120])] ++ List.replicate 11 Io.quiet)
    (fun s => s.broker.stateFile.content.isNone && s.broker.stateFile.fault.isNone) (by decide +kernel)
  obtain ⟨unwritten, fine⟩ := (Bool.and_eq_true _ _).mp checked
  exact ⟨s.lulled, reached, Option.isNone_iff_eq_none.mp unwritten, changes_saved s.lulled lull reached
    silent.endless (lulled_often s) silent.passes 0 fun m _ =>
      lulled_writable silent (Option.isNone_iff_eq_none.mp fine) m⟩

/-! ### The `$SYS` topics -/

/-- Only behind the `$SYS` topics their timer is started. -/
theorem stage_of_sysPublished (starts : s.op io = .sysPublished) : s.pc.stage = 5 := by
  have guarded : ∀ (there : Bool) (op : Op), op ≠ .sysPublished → (if there then op else .idle) ≠ .sysPublished := by
    intro there op other
    cases there
    · exact fun same => by cases same
    · exact other
  cases io with
  | tick dt fault => cases starts
  | go os =>
    simp only [op] at starts
    cases here : s.pc with
    | sysPublish todo scan => rfl
    | events todo =>
      exfalso
      cases todo with
      | nil => simp only [next, here, reduceCtorEq] at starts
      | cons e todo =>
        cases e with
        | listener =>
          simp only [next, here] at starts
          split at starts <;> cases starts
        | client t readable writable =>
          simp only [next, here] at starts
          split at starts <;> cases starts
    | writable t writable todo =>
      simp only [next, here] at starts
      refine absurd starts (guarded writable _ ?_)
      split
      · split <;> exact fun same => by cases same
      · exact fun same => by cases same
    | flushPending todo scan =>
      cases todo with
      | nil => simp only [next, here, reduceCtorEq] at starts
      | cons t todo =>
        simp only [next, here] at starts
        exact absurd starts (guarded _ _ fun same => by cases same)
    | sweep todo scan =>
      cases todo with
      | nil => simp only [next, here, reduceCtorEq] at starts
      | cons t todo =>
        simp only [next, here] at starts
        split at starts <;> cases starts
    | flushForwards todo scan =>
      cases todo with
      | nil => simp only [next, here, reduceCtorEq] at starts
      | cons t todo =>
        simp only [next, here] at starts
        exact absurd starts (guarded _ _ fun same => by cases same)
    | giveUp todo =>
      cases todo with
      | nil => simp only [next, here, reduceCtorEq] at starts
      | cons e todo =>
        simp only [next, here] at starts
        exact absurd starts (guarded _ _ fun same => by cases same)
    | save =>
      simp only [next, here] at starts
      exact absurd starts (guarded _ _ fun same => by cases same)
    | packets t todo n next' failed => cases todo <;> simp only [next, here, reduceCtorEq] at starts
    | reap todo scan => cases todo <;> simp only [next, here, reduceCtorEq] at starts
    | retry todo scan => cases todo <;> simp only [next, here, reduceCtorEq] at starts
    | _ => simp only [next, here, reduceCtorEq] at starts

/-- The round passes the timer of the `$SYS` topics. -/
theorem passes_sysTopics (formed : s.pc.Formed) (done : s.step io = .ok s') (above : 6 ≤ s.pc.stage)
    (below : s'.pc.stage < 6) : ∃ scan, s.pc = .sysTopics scan ∧ ∃ os, io = .go os := by
  rcases stage_kept formed done with same | ⟨last, os, rfl⟩
  · exact absurd (same ▸ below) (Nat.not_lt.mpr above)
  · obtain ⟨b, out, -, rfl⟩ := step_ok.mp done
    simp only [pcAfter] at below
    cases here : s.pc with
    | sysTopics scan => exact ⟨scan, rfl, os, rfl⟩
    | events todo =>
      rw [here] at last
      cases last
      simp [next, here, Pc.stage] at below
    | flushPending todo scan =>
      rw [here] at last
      cases last
      simp [next, here, Pc.stage] at below
    | sweep todo scan =>
      rw [here] at last
      cases last
      simp [next, here, Pc.stage] at below
    | flushForwards todo scan =>
      rw [here] at last
      cases last
      simp [next, here, Pc.stage] at below
    | writable t writable todo => simp [here, Pc.Last] at last
    | packets t todo n next' failed => simp [here, Pc.Last] at last
    | close t next' => simp [here, Pc.Last] at last
    | _ => simp [here, Pc.stage] at above

/-- Only a timer that is due leads to the `$SYS` topics. -/
theorem sysPublish_begins (formed : s.pc.Formed) (done : s.step io = .ok s') (outside : s.pc.stage ≠ 5)
    (inside : s'.pc.stage = 5) : ∃ scan, s'.pc = .sysPublish s'.broker.sysTopics scan := by
  rcases stage_kept formed done with same | ⟨last, os, rfl⟩
  · exact absurd (same.symm.trans inside) outside
  · obtain ⟨b, out, ran, rfl⟩ := step_ok.mp done
    simp only [op] at ran
    simp only [pcAfter] at inside ⊢
    cases here : s.pc with
    | sysTopics scan =>
      simp only [next, here] at inside ⊢
      split at inside
      next due =>
        rw [if_pos due]
        exact ⟨scan, rfl⟩
      next => cases inside
    | poll => simp [next, here, Pc.stage] at inside
    | save => simp [next, here, Pc.stage] at inside
    | writable t writable todo => simp [here, Pc.Last] at last
    | packets t todo n next' failed => simp [here, Pc.Last] at last
    | close t next' => simp [here, Pc.Last] at last
    | sysPublish todo scan => exact absurd (by rw [here]; rfl) outside
    | _ =>
      rw [here] at last
      cases last
      simp [next, here, Pc.stage] at inside

/-- The topics are published one after the other. -/
theorem sysPublish_run {state : Nat → Loop} {input : Nat → Io} (reached : (state 0).Reachable)
    (run : Machine.Endless step (fun s io => s.admits io = true) state input)
    (often : ∀ n, ∃ m ≥ n, (state m).Works (input m)) {todo : List (Str × Bytes)} {scan : Scan} (distinct : (todo.map Prod.fst).Nodup)
    (filled : ∀ e ∈ todo, e.2 ≠ []) {n : Nat} (here : (state n).pc = .sysPublish todo scan) :
    ∃ k ≥ n, (∀ e ∈ todo, (state k).broker.retained.get? e.1 = some (e.2, 0)) ∧
      ∀ topic ∉ todo.map Prod.fst,
        (state k).broker.retained.get? topic = (state n).broker.retained.get? topic := by
  induction todo generalizing n with
  | nil => exact ⟨n, le_rfl, fun e member => (List.not_mem_nil member).elim, fun _ _ => rfl⟩
  | cons e todo ih =>
    obtain ⟨fresh, distinct⟩ := List.nodup_cons.mp distinct
    obtain ⟨m, later, ⟨os, given⟩, there, now, file, waited⟩ := goes_on run often n
    rw [here] at there
    obtain ⟨b, out, ran, same⟩ := step_ok.mp (run.next m)
    rw [given] at ran same
    have op : (state m).op (.go os) = .publish e.1 e.2 0 true := by simp only [op, next, there]
    have pc : (state (m + 1)).pc = .sysPublish todo scan := by
      rw [same]
      simp only [pcAfter, next, there]
    have published : ∀ topic, (state (m + 1)).broker.retained.get? topic =
        if e.1 = topic then some (e.2, 0) else (state n).broker.retained.get? topic := by
      intro topic
      have call : ((state m).op (.go os)).publishCall (state m).broker =
          some ⟨(state m).broker, e.1, e.2, 0, true⟩ := by rw [op]; rfl
      have stored := Op.retained (Reachable.healthy (run.reaches reached m)) ran topic
      rw [call, Option.elim_some, waited] at stored
      rw [same]
      refine stored.trans ?_
      simp only [PublishCall.stored, PublishCall.entry, true_and]
      refine if_congr Iff.rfl (if_neg ?_) rfl
      simpa using filled e (List.mem_cons_self ..)
    obtain ⟨k, last, rest, others⟩ := ih distinct (fun e' member => filled e' (List.mem_cons_of_mem _ member)) pc
    refine ⟨k, Nat.le_trans later (Nat.le_of_succ_le last), fun e' member => ?_, fun topic absent => ?_⟩
    · rcases List.mem_cons.mp member with rfl | member
      · rw [others e'.1 fresh, published, if_pos rfl]
      · exact rest e' member
    · obtain ⟨other, absent⟩ := not_or.mp (List.mem_cons.not.mp absent)
      rw [others topic absent, published, if_neg (Ne.symm other)]

/-- The `$SYS` topics are published again and again. -/
theorem sys_topics_published (state : Nat → Loop) (input : Nat → Io) (reached : (state 0).Reachable)
    (run : Machine.Endless step (fun s io => s.admits io = true) state input)
    (often : ∀ n, ∃ m ≥ n, (state m).Works (input m)) (passes : ∀ τ, ∃ m, τ ≤ (state m).broker.now) (n : Nat) :
    ∃ m ≥ n, ∃ k ≥ m, ∀ e ∈ (state m).broker.sysTopics,
      (state k).broker.retained.get? e.1 = some (e.2, 0) := by
  by_contra never
  -- Then the topics are not begun again, so their timer stands still.
  have unbegun : ∀ m ≥ n, ∀ scan, (state m).pc ≠ .sysPublish (state m).broker.sysTopics scan := by
    intro m le scan here
    obtain ⟨distinct, filled⟩ := (state m).broker.sysTopics_distinct
    obtain ⟨k, later, published, -⟩ := sysPublish_run reached run often distinct filled here
    exact never ⟨m, le, k, later, published⟩
  obtain ⟨a, after, polling⟩ := poll_recurs reached run often n
  have outside : ∀ m, a ≤ m → (state m).pc.stage ≠ 5 := by
    intro m le
    induction m, le using Nat.le_induction with
    | base => simp [show (state a).pc = _ from polling, Pc.stage]
    | succ m le ih =>
      intro inside
      obtain ⟨scan, begun⟩ := sysPublish_begins (Reachable.formed (run.reaches reached m)) (run.next m) ih inside
      exact unbegun _ (Nat.le_succ_of_le (Nat.le_trans after le)) scan begun
  have since : ∀ m, a ≤ m → (state m).broker.sysLastPublish = (state a).broker.sysLastPublish := by
    intro m le
    induction m, le using Nat.le_induction with
    | base => rfl
    | succ m le ih =>
      obtain ⟨b, out, ran, same⟩ := step_ok.mp (run.next m)
      rw [same]
      refine Eq.trans ?_ ih
      exact (Op.timers (Reachable.healthy (run.reaches reached m)).indexed ran).published fun starts =>
        outside m le (stage_of_sysPublished starts)
  obtain ⟨c, late⟩ := passes ((state a).broker.sysLastPublish + secs 10)
  obtain ⟨m, k, later, before, scanned, ended⟩ := rounds_again reached run often (max a c)
  have begun : 6 ≤ (state m).pc.stage := by simp [show (state m).pc = _ from scanned, Pc.stage]
  obtain ⟨j, from_m, -, above, below⟩ := Machine.crosses (fun j => 6 ≤ (state j).pc.stage) before begun
    (by simp [ended, Pc.stage])
  obtain ⟨scan, here, os, given⟩ := passes_sysTopics (Reachable.formed (run.reaches reached j)) (run.next j)
    above (Nat.not_le.mp below)
  have from_a : a ≤ j := Nat.le_trans (Nat.le_trans (Nat.le_max_left a c) later) from_m
  have from_c : c ≤ j := Nat.le_trans (Nat.le_trans (Nat.le_max_right a c) later) from_m
  have due : secs 10 ≤ (state j).broker.now - (state j).broker.sysLastPublish := by
    rw [since j from_a]
    exact Nat.le_sub_of_add_le' (Nat.le_trans late (now_le_of_le reached run from_c))
  obtain ⟨b, out, ran, same⟩ := step_ok.mp (run.next j)
  rw [given] at ran same
  simp only [op, next, here] at ran
  cases ran
  refine outside (j + 1) (Nat.le_succ_of_le from_a) ?_
  rw [same]
  simp only [pcAfter, next, here, ge_iff_le, if_pos due, Pc.stage]

/-- A client that is silent. -/
theorem sys_topics_published_lulled : ∃ (state : Nat → Loop), (state 0).Reachable ∧
    (state 0).broker.clients.contains 1 = true ∧ ∃ m ≥ 0, ∃ k ≥ m,
      ∀ e ∈ (state m).broker.sysTopics, (state k).broker.retained.get? e.1 = some (e.2, 0) := by
  obtain ⟨s, reached, silent, there⟩ := exists_silent
    ([Io.listen, .connection] ++ List.replicate 3 Io.quiet ++ [Io.read (connectBytes 2 97)] ++
      List.replicate 10 Io.quiet)
    (fun s => s.broker.clients.contains 1) (by decide +kernel)
  exact ⟨s.lulled, reached, there, sys_topics_published s.lulled lull reached silent.endless (lulled_often s)
    silent.passes 0⟩

end Loop
end MioBroker
