import MioBroker.Decoders

/-!
# What is saved is read back

Every decoder reads what the encoder of the same name writes, provided that lengths and counts
fit their 16 bits and QoS values are legal.
-/
namespace MioBroker

open Rust Decoder

theorem take_reads (bs : Bytes) : Reads (take bs.length) bs bs := by
  intro rest
  simp [take]

theorem takeU16_reads (n : Nat) (fits : n ≤ 65535) : Reads takeU16 (pushU16 n) n := by
  have read : Reads takeU16 (pushU16 n ++ []) n := by
    refine Reads.bind (take_reads (pushU16 n)) ?_
    have same : (u16FromLe (UInt8.ofNat (UInt16.ofNat n).toNat)
        (UInt8.ofNat ((UInt16.ofNat n).toNat / 256))).toNat = n := by
      rw [u16FromLe_toLe, UInt16.toNat_ofNat_of_lt' (Nat.lt_succ_of_le fits)]
    simp only [pushU16, u16ToLe, same]
    exact .pure n
  rwa [List.append_nil] at read

theorem takeBytes_reads (bs : Bytes) (fits : bs.length ≤ 65535) :
    Reads takeBytes (pushBytes bs) bs := (takeU16_reads bs.length fits).bind (take_reads bs)

theorem takeQos_reads (qos : UInt8) (legal : qos ≤ 2) : Reads takeQos [qos] qos := by
  have read : Reads takeQos ([qos] ++ []) qos := by
    refine Reads.bind (take_reads [qos]) ?_
    simp only [if_neg (UInt8.not_lt.mpr legal)]
    exact .pure qos
  rwa [List.append_nil] at read

/-- Decode as many items as were encoded. -/
theorem takeMany_reads {α : Type} (item : Decoder α) (push : α → Bytes) (items : List α)
    (each : ∀ a ∈ items, Reads item (push a) a) :
    Reads (takeMany item items.length) (items.flatMap push) items := by
  induction items with
  | nil => exact .pure []
  | cons a items ih =>
    have rest := ih fun a member => each a (List.mem_cons_of_mem _ member)
    exact (each a List.mem_cons_self).bind (rest.map (f := (a :: ·)))

/-! ### The parts of a state -/

/-- A message within the limits of the file: a retained entry or one of an offline queue. -/
structure Message.Fits (topic : Str) (payload : Bytes) (qos : UInt8) : Prop where
  topic : topic.length ≤ 65535
  payload : payload.length ≤ 65535
  qos : qos ≤ 2

structure SessionState.Fits (cid : Str) (sess : SessionState) : Prop where
  cid : cid.length ≤ 65535
  subCount : sess.subs.length ≤ 65535
  subs : ∀ sub ∈ sess.subs, sub.1.length ≤ 65535 ∧ sub.2 ≤ 2
  offlineCount : sess.offline.length ≤ 65535
  offline : ∀ m ∈ sess.offline, Message.Fits m.1 m.2.1 m.2.2

theorem takeMessage_reads (m : Str × Bytes × UInt8) (fits : Message.Fits m.1 m.2.1 m.2.2) :
    Reads takeMessage (pushMessage m.1 m.2.1 m.2.2) m := by
  obtain ⟨topic, payload, qos⟩ := m
  have read : Reads takeMessage
      (pushBytes topic.bytes ++ (pushBytes payload ++ [qos])) (topic, payload, qos) := by
    rw [takeMessage]
    refine (takeBytes_reads topic.bytes fits.topic).bind ((takeBytes_reads payload fits.payload).bind ?_)
    rw [Str.fromUtf8Lossy_bytes]
    exact (takeQos_reads qos fits.qos).map (f := fun q => (topic, payload, q))
  simpa only [pushMessage, List.append_assoc] using read

theorem takeSub_reads (sub : Str × UInt8) (fits : sub.1.length ≤ 65535 ∧ sub.2 ≤ 2) :
    Reads takeSub (pushSub sub) sub := by
  rw [takeSub]
  refine (takeBytes_reads sub.1.bytes fits.1).bind ?_
  rw [Str.fromUtf8Lossy_bytes]
  exact (takeQos_reads sub.2 fits.2).map (f := fun q => (sub.1, q))

theorem takeSession_reads (e : Str × SessionState) (fits : e.2.Fits e.1) :
    Reads takeSession (pushSession e.1 e.2) e := by
  obtain ⟨cid, sess⟩ := e
  have subs : Reads (takeMany takeSub sess.subs.length) (sess.subs.flatMap pushSub) sess.subs :=
    takeMany_reads takeSub pushSub sess.subs fun sub member => takeSub_reads sub (fits.subs sub member)
  have offline : Reads (takeMany takeMessage sess.offline.length)
      (sess.offline.flatMap fun m => pushMessage m.1 m.2.1 m.2.2) sess.offline :=
    takeMany_reads takeMessage (fun m => pushMessage m.1 m.2.1 m.2.2) sess.offline
      fun m member => takeMessage_reads m (fits.offline m member)
  -- The fields are read back in the order in which they were pushed.
  have read : Reads takeSession (pushBytes cid.bytes ++ (pushU16 sess.subs.length ++
      (sess.subs.flatMap pushSub ++ (pushU16 sess.offline.length ++
        sess.offline.flatMap fun m => pushMessage m.1 m.2.1 m.2.2)))) (cid, sess) := by
    rw [takeSession]
    refine Reads.bind (takeBytes_reads cid.bytes fits.cid) ?_
    refine Reads.bind (takeU16_reads sess.subs.length fits.subCount) ?_
    refine Reads.bind subs ?_
    refine Reads.bind (takeU16_reads sess.offline.length fits.offlineCount) ?_
    rw [Str.fromUtf8Lossy_bytes]
    exact offline.map (f := fun l => (cid, (⟨sess.subs, l⟩ : SessionState)))
  simpa only [pushSession, List.append_assoc] using read

/-! ### Tables -/

/-- Rebuilding a map from what its iteration visits, in any order, gives the map back. -/
theorem insertAll_iter {V : Type} (entries : List (Str × V)) (m : HashMap Str V)
    (distinct : (entries.map Prod.fst).Nodup) (k : Str) :
    (∀ v, (k, v) ∈ entries → (insertAll m entries).get? k = some v) ∧
      ((∀ v, (k, v) ∉ entries) → (insertAll m entries).get? k = m.get? k) := by
  induction entries generalizing m with
  | nil => exact ⟨fun v member => by simp at member, fun _ => rfl⟩
  | cons e entries ih =>
    obtain ⟨fresh, distinct⟩ := List.nodup_cons.mp distinct
    obtain ⟨later, other⟩ := ih (m.insert e.1 e.2) distinct
    refine ⟨fun v member => ?_, fun absent => ?_⟩
    · rcases List.mem_cons.mp member with rfl | member
      · have unseen : ∀ w, (k, w) ∉ entries :=
          fun w again => fresh (List.mem_map.mpr ⟨(k, w), again, rfl⟩)
        exact (other unseen).trans (HashMap.get?_insert_self _ _ _)
      · exact later v member
    · have differ : k ≠ e.1 := fun same => absent e.2 (same ▸ List.mem_cons_self)
      exact (other fun v member => absent v (List.mem_cons_of_mem _ member)).trans
        (HashMap.get?_insert_ne _ _ differ)

theorem insertAll_equiv {V : Type} (m : HashMap Str V) (hasher : RandomState Str) :
    (insertAll (.new hasher) m.iter).Equiv m := by
  intro k
  obtain ⟨there, absent⟩ := insertAll_iter m.iter (.new hasher) m.nodup_keys k
  cases found : m.get? k with
  | some v => exact there v ((HashMap.mem_iter _ _ _).mpr found)
  | none =>
    refine absent fun v member => ?_
    rw [(HashMap.mem_iter _ _ _).mp member] at found
    cases found

/-- Tables the state file can hold. -/
structure StateFits (retained : HashMap Str (Bytes × UInt8)) (sessions : HashMap Str SessionState) :
    Prop where
  retainedCount : retained.size ≤ 65535
  retained : ∀ topic payload qos, retained.get? topic = some (payload, qos) →
    Message.Fits topic payload qos
  sessionCount : sessions.size ≤ 65535
  sessions : ∀ cid sess, sessions.get? cid = some sess → sess.Fits cid

theorem takeState_reads (h : Hashers) {retained : HashMap Str (Bytes × UInt8)}
    {sessions : HashMap Str SessionState} (fits : StateFits retained sessions) :
    Reads (takeState h)
      (pushU16 retained.size ++ (retained.iter.flatMap (fun e => pushMessage e.1 e.2.1 e.2.2) ++
        (pushU16 sessions.size ++ sessions.iter.flatMap fun e => pushSession e.1 e.2)))
      (insertAll (.new h.retained) retained.iter, insertAll (.new h.sessions) sessions.iter) := by
  have messages := takeMany_reads takeMessage (fun e => pushMessage e.1 e.2.1 e.2.2) retained.iter
    fun e member =>
      takeMessage_reads e (fits.retained e.1 e.2.1 e.2.2 ((HashMap.mem_iter _ _ _).mp member))
  have entries := takeMany_reads takeSession (fun e => pushSession e.1 e.2) sessions.iter
    fun e member => takeSession_reads e (fits.sessions e.1 e.2 ((HashMap.mem_iter _ _ _).mp member))
  rw [HashMap.length_iter] at messages entries
  rw [takeState]
  refine Reads.bind (takeU16_reads retained.size fits.retainedCount) ?_
  refine Reads.bind messages ?_
  refine Reads.bind (takeU16_reads sessions.size fits.sessionCount) ?_
  exact entries.map (f := fun l =>
    (insertAll (.new h.retained) retained.iter, insertAll (.new h.sessions) l))

/-- What stands behind magic and version. -/
theorem serializeState_behind (retained : HashMap Str (Bytes × UInt8))
    (sessions : HashMap Str SessionState) :
    (serializeState retained sessions).drop (STATE_MAGIC.length + 1) =
      pushU16 retained.size ++ (retained.iter.flatMap (fun e => pushMessage e.1 e.2.1 e.2.2) ++
        (pushU16 sessions.size ++ sessions.iter.flatMap fun e => pushSession e.1 e.2)) := by
  simp only [serializeState, List.append_assoc]
  rfl

theorem takeState_serialize (h : Hashers) {retained : HashMap Str (Bytes × UInt8)}
    {sessions : HashMap Str SessionState} (fits : StateFits retained sessions) :
    takeState h ((serializeState retained sessions).drop (STATE_MAGIC.length + 1)) =
      some ((insertAll (.new h.retained) retained.iter, insertAll (.new h.sessions) sessions.iter),
        []) := by
  have read := takeState_reads h fits []
  rw [List.append_nil] at read
  rw [serializeState_behind, read]

theorem deserializeState_serialize (h : Hashers) {retained : HashMap Str (Bytes × UInt8)}
    {sessions : HashMap Str SessionState} (fits : StateFits retained sessions) :
    deserializeState h (serializeState retained sessions) =
      some (insertAll (.new h.retained) retained.iter, insertAll (.new h.sessions) sessions.iter) := by
  have long : ¬(serializeState retained sessions).length < STATE_MAGIC.length + 1 := by
    simp only [serializeState, List.length_append, List.length_singleton]
    omega
  have magic : (serializeState retained sessions).take STATE_MAGIC.length = STATE_MAGIC := by
    simp only [serializeState, List.append_assoc]
    rfl
  have version : (serializeState retained sessions)[STATE_MAGIC.length]? = some STATE_VERSION := by
    simp only [serializeState, List.append_assoc]
    rfl
  rw [deserializeState, if_neg long, if_neg (not_not.mpr magic), if_neg (not_not.mpr version),
    takeState_serialize h fits]
  rfl

/-- Saved tables are read back as they were, and every byte written is consumed. -/
theorem deserialize_serialize (h : Hashers) (retained : HashMap Str (Bytes × UInt8))
    (sessions : HashMap Str SessionState) (fits : StateFits retained sessions) :
    ∃ retained' sessions',
      deserializeState h (serializeState retained sessions) = some (retained', sessions') ∧
      retained'.Equiv retained ∧ sessions'.Equiv sessions ∧
      takeState h ((serializeState retained sessions).drop (STATE_MAGIC.length + 1)) =
        some ((retained', sessions'), []) :=
  ⟨_, _, deserializeState_serialize h fits, insertAll_equiv retained h.retained,
    insertAll_equiv sessions h.sessions, takeState_serialize h fits⟩

/-- A retained message, and a session with a subscription and a queued message. -/
theorem deserialize_serialize_one :
    let t : Str := .fromUtf8Lossy [116]
    let retained : HashMap Str (Bytes × UInt8) := (HashMap.new default).insert t ([1, 2], 1)
    let sessions : HashMap Str SessionState :=
      (HashMap.new default).insert t ⟨[(t, 2)], [(t, [3], 1)]⟩
    StateFits retained sessions ∧ ∃ retained' sessions',
      deserializeState ⟨default, default, default, default⟩ (serializeState retained sessions) =
        some (retained', sessions') ∧
      retained'.Equiv retained ∧ sessions'.Equiv sessions ∧
      takeState ⟨default, default, default, default⟩
        ((serializeState retained sessions).drop (STATE_MAGIC.length + 1)) =
          some ((retained', sessions'), []) := by
  intro t retained sessions
  have short : t.length ≤ 65535 := by decide
  have fits : StateFits retained sessions := by
    refine ⟨by decide, fun topic payload qos found => ?_, by decide, fun cid sess found => ?_⟩
    · rw [HashMap.get?_insert] at found
      split at found
      next same =>
        cases found
        exact ⟨same ▸ short, by decide, by decide⟩
      next => simp at found
    · rw [HashMap.get?_insert] at found
      split at found
      next same =>
        cases found
        refine ⟨same ▸ short, by decide, ?_, by decide, ?_⟩
        · simpa using short
        · simpa using ⟨short, by decide, by decide⟩
      next => simp at found
  exact ⟨fits, deserialize_serialize _ retained sessions fits⟩

end MioBroker
