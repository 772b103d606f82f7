import MioBroker.Decoders

/-!
# The decoder on a buffer

`deserialize_state` walks one buffer with a position in it and indexes the slices it takes, which
panics out of range. It is the decoder on what is left of the input, so it never reads outside;
it sees the bytes it consumes and no others, so a shorter file is refused and a longer one read
the same.
-/
namespace MioBroker

open Rust Decoder

/-- A function of the buffer and the position: it may panic, answer `None`, or move on. -/
abbrev Reader (α : Type) := ReaderT Bytes (StateT Nat (OptionT Run)) α

namespace Reader

variable {α β : Type}

/-- `return None` -/
def reject : Reader α := fun _ _ => OptionT.mk (.ok none)

/-- `v[i]` -/
def index (v : Bytes) (i : Nat) : Reader UInt8 := fun _ pos =>
  OptionT.mk ((Run.index v i).map fun x => some (x, pos))

def take (n : Nat) : Reader Bytes := fun buf pos => OptionT.mk do
  if pos + n > buf.length then return none
  let s ← Run.slice buf pos (pos + n)
  return some (s, pos + n)

def takeU16 : Reader Nat := do
  let b ← take 2
  let lo ← index b 0
  let hi ← index b 1
  pure (u16FromLe lo hi).toNat

/-- `take(data, &mut pos, 1)?[0]`, refused above 2. -/
def takeQos : Reader UInt8 := do
  let b ← take 1
  let qos ← index b 0
  if qos > 2 then reject else pure qos

/-- `for _ in 0..n` with what the body updates. -/
def loop (body : β → Reader β) : Nat → β → Reader β
  | 0, acc => pure acc
  | n + 1, acc => do
    let acc ← body acc
    loop body n acc

def retainedBody (retained : HashMap Str (Bytes × UInt8)) : Reader (HashMap Str (Bytes × UInt8)) := do
  let tlen ← takeU16
  let topic ← take tlen
  let plen ← takeU16
  let payload ← take plen
  let qos ← takeQos
  pure (retained.insert (.fromUtf8Lossy topic) (payload, qos))

def subsBody (subs : List (Str × UInt8)) : Reader (List (Str × UInt8)) := do
  let flen ← takeU16
  let filter ← take flen
  let sqos ← takeQos
  pure (subs ++ [(.fromUtf8Lossy filter, sqos)])

def offlineBody (offline : List (Str × Bytes × UInt8)) : Reader (List (Str × Bytes × UInt8)) := do
  let tlen ← takeU16
  let topic ← take tlen
  let plen ← takeU16
  let payload ← take plen
  let oqos ← takeQos
  pure (offline ++ [(.fromUtf8Lossy topic, payload, oqos)])

def sessionsBody (sessions : HashMap Str SessionState) : Reader (HashMap Str SessionState) := do
  let clen ← takeU16
  let cid ← take clen
  let sCount ← takeU16
  let subs ← loop subsBody sCount []
  let oCount ← takeU16
  let offline ← loop offlineBody oCount []
  pure (sessions.insert (.fromUtf8Lossy cid) ⟨subs, offline⟩)

def tables (h : Hashers) : Reader (HashMap Str (Bytes × UInt8) × HashMap Str SessionState) := do
  let rcount ← takeU16
  let retained ← loop retainedBody rcount (.new h.retained)
  let scount ← takeU16
  let sessions ← loop sessionsBody scount (.new h.sessions)
  pure (retained, sessions)

/-- `deserialize_state`; the answer comes with the position behind the last byte read. -/
def deserializeState (h : Hashers) (data : Bytes) :
    Run (Option ((HashMap Str (Bytes × UInt8) × HashMap Str SessionState) × Nat)) := do
  if data.length < STATE_MAGIC.length + 1 then return none
  let magic ← Run.slice data 0 STATE_MAGIC.length
  if magic ≠ STATE_MAGIC then return none
  let version ← Run.index data STATE_MAGIC.length
  if version ≠ STATE_VERSION then return none
  (tables h data (STATE_MAGIC.length + 1)).run

/-! ### It is the decoder on what is left -/

/-- The position that leaves these bytes. -/
def position (buf : Bytes) (r : α × Bytes) : α × Nat := (r.1, buf.length - r.2.length)

/-- On every buffer and from every position in it the reader does what the decoder does with the
bytes that are left. -/
def Follows (r : Reader α) (d : Decoder α) : Prop :=
  ∀ buf pos, pos ≤ buf.length →
    (r buf pos).run = .ok ((d (buf.drop pos)).map (position buf)) ∧
      ∀ a rest, d (buf.drop pos) = some (a, rest) → rest <:+ buf

theorem Follows.pure (a : α) : Follows (Pure.pure a) (Pure.pure a) := by
  intro buf pos inside
  refine ⟨?_, fun b rest done => ?_⟩
  · have back : buf.length - (buf.drop pos).length = pos := by
      rw [List.length_drop]
      omega
    exact congrArg (fun p => Except.ok (some (a, p))) back.symm
  · cases done
    exact List.drop_suffix _ _

/-- One reader after the other. -/
theorem run_bind (r : Reader α) (f : α → Reader β) (buf : Bytes) (pos : Nat) :
    ((r >>= f) buf pos).run = (r buf pos).run >>= fun
      | some (a, pos) => (f a buf pos).run
      | none => pure none := by
  change ((r buf pos) >>= fun p => f p.1 buf p.2).run = _
  rw [OptionT.run_bind]
  refine bind_congr fun answer => ?_
  rcases answer with _ | ⟨a, pos⟩ <;> rfl

/-- Two steps, the second of which relies on what the first yields. -/
theorem Follows.bind_of {r : Reader α} {d : Decoder α} {f : α → Reader β} {g : α → Decoder β}
    {P : α → Prop} (first : Follows r d) (yields : Yields d P)
    (second : ∀ a, P a → Follows (f a) (g a)) : Follows (r >>= f) (d >>= g) := by
  intro buf pos inside
  obtain ⟨same, suffix⟩ := first buf pos inside
  rw [run_bind, same]
  change _ = Except.ok (Option.map (position buf)
      (Option.bind (d (buf.drop pos)) fun p => g p.1 p.2)) ∧
    ∀ b rest, Option.bind (d (buf.drop pos)) (fun p => g p.1 p.2) = some (b, rest) → rest <:+ buf
  cases answer : d (buf.drop pos) with
  | none => exact ⟨rfl, fun _ _ done => by cases done⟩
  | some taken =>
    obtain ⟨a, left⟩ := taken
    -- what is left is the buffer from the new position on
    have behind : buf.drop (buf.length - left.length) = left :=
      (List.suffix_iff_eq_drop.mp (suffix a left answer)).symm
    have next := second a (yields _ _ _ answer) buf (buf.length - left.length) (Nat.sub_le _ _)
    rw [behind] at next
    exact next

theorem Follows.bind {r : Reader α} {d : Decoder α} {f : α → Reader β} {g : α → Decoder β}
    (first : Follows r d) (second : ∀ a, Follows (f a) (g a)) : Follows (r >>= f) (d >>= g) :=
  first.bind_of (Yields.trivial d) fun a _ => second a

theorem Follows.reject : Follows (reject : Reader α) (fun _ => none) :=
  fun _ _ _ => ⟨rfl, fun _ _ done => by cases done⟩

theorem take_follows (n : Nat) : Follows (take n) (MioBroker.take n) := by
  intro buf pos inside
  simp only [take, MioBroker.take, List.length_drop]
  by_cases short : pos + n > buf.length
  · rw [if_pos short, if_pos (by omega)]
    exact ⟨rfl, fun _ _ done => by cases done⟩
  · rw [if_neg short, if_neg (by omega), Run.slice_of_le _ _ _ (by omega) (Nat.not_lt.mp short)]
    refine ⟨?_, fun a rest done => ?_⟩
    · have back : buf.length - ((buf.drop pos).drop n).length = pos + n := by
        simp only [List.length_drop]
        omega
      have same : (buf.take (pos + n)).drop pos = (buf.drop pos).take n := by
        rw [List.drop_take, Nat.add_sub_cancel_left]
      simp only [Option.map_some, position, back, same]
      rfl
    · cases done
      exact (List.drop_suffix _ _).trans (List.drop_suffix _ _)

theorem take_yields (n : Nat) : Yields (MioBroker.take n) fun bs => bs.length = n := by
  intro data bs rest done
  simp only [MioBroker.take] at done
  split at done
  · cases done
  next enough =>
    cases done
    exact List.length_take_of_le (Nat.not_lt.mp enough)

/-- An index that is in range reads and moves nothing. -/
theorem index_bind (bs : Bytes) (i : Nat) (x : UInt8) (there : Run.index bs i = .ok x)
    (f : UInt8 → Reader α) : (index bs i >>= f) = f x := by
  funext buf pos
  change (OptionT.mk ((Run.index bs i).map fun x => some (x, pos)) >>= fun p => f p.1 buf p.2) = _
  rw [there]
  rfl

/-- Two bytes have been taken, so both indices are in range. -/
theorem takeU16_follows : Follows takeU16 MioBroker.takeU16 := by
  refine (take_follows 2).bind_of (take_yields 2) fun bs two => ?_
  obtain ⟨lo, hi, rfl⟩ := List.length_eq_two.mp two
  rw [index_bind [lo, hi] 0 lo rfl, index_bind [lo, hi] 1 hi rfl]
  exact .pure _

theorem takeQos_follows : Follows takeQos MioBroker.takeQos := by
  refine (take_follows 1).bind_of (take_yields 1) fun bs one => ?_
  obtain ⟨qos, rfl⟩ := List.length_eq_one_iff.mp one
  rw [index_bind [qos] 0 qos rfl]
  change Follows _ (if qos > 2 then fun _ => none else Pure.pure qos)
  split
  · exact .reject
  · exact .pure qos

theorem takeBytes_follows {f : Bytes → Reader α} {g : Bytes → Decoder α}
    (next : ∀ bs, Follows (f bs) (g bs)) :
    Follows (takeU16 >>= fun n => take n >>= f) (takeBytes >>= g) := by
  rw [takeBytes, bind_assoc]
  exact takeU16_follows.bind fun n => (take_follows n).bind next

/-- A loop that updates an accumulator is the list of items, folded. -/
theorem loop_follows {body : β → Reader β} {item : Decoder α} (push : β → α → β)
    (each : ∀ acc, Follows (body acc) (item >>= fun a => Pure.pure (push acc a))) (n : Nat) (acc : β) :
    Follows (loop body n acc) (takeMany item n >>= fun items => Pure.pure (items.foldl push acc)) := by
  induction n generalizing acc with
  | zero => exact .pure acc
  | succ n ih =>
    have first := (each acc).bind ih
    simp only [bind_assoc, pure_bind] at first
    simp only [takeMany, bind_assoc, pure_bind, List.foldl_cons]
    exact first

theorem message_follows {f : Str × Bytes × UInt8 → Reader β} {g : Str × Bytes × UInt8 → Decoder β}
    (next : ∀ m, Follows (f m) (g m)) :
    Follows (takeU16 >>= fun tlen => take tlen >>= fun topic => takeU16 >>= fun plen =>
        take plen >>= fun payload => takeQos >>= fun qos => f (.fromUtf8Lossy topic, payload, qos))
      (takeMessage >>= g) := by
  simp only [takeMessage, bind_assoc, pure_bind]
  exact takeBytes_follows fun topic => takeBytes_follows fun payload =>
    takeQos_follows.bind fun qos => next _

theorem retainedBody_follows (retained : HashMap Str (Bytes × UInt8)) :
    Follows (retainedBody retained)
      (takeMessage >>= fun m => Pure.pure (retained.insert m.1 m.2)) :=
  message_follows (f := fun m => Pure.pure (retained.insert m.1 m.2)) fun _ => .pure _

theorem offlineBody_follows (offline : List (Str × Bytes × UInt8)) :
    Follows (offlineBody offline) (takeMessage >>= fun m => Pure.pure (offline ++ [m])) :=
  message_follows (f := fun m => Pure.pure (offline ++ [m])) fun _ => .pure _

theorem subsBody_follows (subs : List (Str × UInt8)) :
    Follows (subsBody subs) (takeSub >>= fun sub => Pure.pure (subs ++ [sub])) := by
  simp only [takeSub, bind_assoc, pure_bind]
  exact takeBytes_follows fun filter => takeQos_follows.bind fun qos => .pure _

/-- Pushing item after item. -/
theorem foldl_push {γ : Type} (items acc : List γ) :
    items.foldl (fun l a => l ++ [a]) acc = acc ++ items := by
  induction items generalizing acc with
  | nil => simp
  | cons a items ih => simp [ih]

theorem sessionsBody_follows (sessions : HashMap Str SessionState) :
    Follows (sessionsBody sessions)
      (takeSession >>= fun e => Pure.pure (sessions.insert e.1 e.2)) := by
  have subs := fun n => loop_follows (fun l a => l ++ [a]) subsBody_follows n []
  have offline := fun n => loop_follows (fun l a => l ++ [a]) offlineBody_follows n []
  simp only [foldl_push, List.nil_append, bind_pure] at subs offline
  simp only [takeSession, bind_assoc, pure_bind]
  exact takeBytes_follows fun cid => takeU16_follows.bind fun n => (subs n).bind fun _ =>
    takeU16_follows.bind fun n => (offline n).bind fun _ => .pure _

theorem tables_follows (h : Hashers) : Follows (tables h) (takeState h) := by
  have retained := fun n =>
    loop_follows (fun (m : HashMap Str (Bytes × UInt8)) (e : Str × Bytes × UInt8) => m.insert e.1 e.2)
       retainedBody_follows n (.new h.retained)
  have sessions := fun n =>
    loop_follows (fun (m : HashMap Str SessionState) (e : Str × SessionState) => m.insert e.1 e.2)
       sessionsBody_follows n (.new h.sessions)
  have whole := takeU16_follows.bind fun n => (retained n).bind fun r =>
    takeU16_follows.bind fun n => (sessions n).bind fun s => .pure (r, s)
  simp only [bind_assoc, pure_bind] at whole
  exact whole

/-- Magic and version are there. -/
def Header (data : Bytes) : Prop := STATE_MAGIC ++ [STATE_VERSION] <+: data

instance (data : Bytes) : Decidable (Header data) := inferInstanceAs (Decidable (_ <+: _))

theorem header_iff (data : Bytes) : Header data ↔ STATE_MAGIC.length + 1 ≤ data.length ∧
    data.take STATE_MAGIC.length = STATE_MAGIC ∧ data[STATE_MAGIC.length]? = some STATE_VERSION := by
  constructor
  · rintro ⟨rest, rfl⟩
    refine ⟨by simp, ?_, ?_⟩
    · rw [List.append_assoc, List.take_left]
    · rw [List.append_assoc, List.getElem?_append_right (Nat.le_refl _), Nat.sub_self]
      rfl
  · rintro ⟨long, magic, version⟩
    have eleven : data.take (STATE_MAGIC.length + 1) = STATE_MAGIC ++ [STATE_VERSION] := by
      rw [List.take_add_one, magic, version]
      rfl
    rw [Header, ← eleven]
    exact List.take_prefix _ _

theorem deserializeState_header (h : Hashers) (data : Bytes) :
    MioBroker.deserializeState h data = if Header data then
      (takeState h (data.drop (STATE_MAGIC.length + 1))).map Prod.fst else none := by
  rw [MioBroker.deserializeState]
  by_cases header : Header data
  · obtain ⟨long, magic, version⟩ := (header_iff data).mp header
    rw [if_neg (Nat.not_lt.mpr long), if_neg (not_not.mpr magic), if_neg (not_not.mpr version),
      if_pos header]
  · rw [if_neg header]
    split
    · rfl
    split
    · rfl
    split
    · rfl
    next long magic version =>
      exact absurd ((header_iff data).mpr
        ⟨Nat.not_lt.mp long, not_not.mp magic, not_not.mp version⟩) header

/-- `deserialize_state` never panics; behind the header it is the decoder. -/
theorem deserializeState_eq (h : Hashers) (data : Bytes) :
    deserializeState h data = .ok (if Header data then
      (takeState h (data.drop (STATE_MAGIC.length + 1))).map (position data) else none) := by
  rw [deserializeState]
  by_cases short : data.length < STATE_MAGIC.length + 1
  · rw [if_pos short, if_neg fun header => Nat.not_lt.mpr ((header_iff data).mp header).1 short]
    rfl
  · have long := Nat.not_lt.mp short
    have there : Run.index data STATE_MAGIC.length = .ok data[STATE_MAGIC.length] :=
      Run.index_of_lt _ _ long
    rw [if_neg short, Run.slice_of_le _ _ _ (Nat.zero_le _) (Nat.le_of_succ_le long), there]
    simp only [List.drop_zero, Run.ok_bind, header_iff, long, true_and,
      List.getElem?_eq_getElem long, Option.some.injEq]
    by_cases magic : data.take STATE_MAGIC.length = STATE_MAGIC
    · by_cases version : data[STATE_MAGIC.length] = STATE_VERSION
      · simp only [magic, version, ne_eq, not_true_eq_false, if_false, and_self, if_true]
        exact (tables_follows h data _ long).1
      · simp [magic, version]
    · simp [magic]

/-- Header and tables, whatever follows. -/
theorem deserializeState_reads (h : Hashers) {used : Bytes}
    {tables : HashMap Str (Bytes × UInt8) × HashMap Str SessionState}
    (reads : Reads (takeState h) used tables) (more : Bytes) :
    deserializeState h (STATE_MAGIC ++ [STATE_VERSION] ++ used ++ more) =
      .ok (some (tables, (STATE_MAGIC ++ [STATE_VERSION] ++ used).length)) := by
  have header : Header (STATE_MAGIC ++ [STATE_VERSION] ++ used ++ more) := by
    rw [List.append_assoc]
    exact List.prefix_append _ _
  have behind : (STATE_MAGIC ++ [STATE_VERSION] ++ used ++ more).drop (STATE_MAGIC.length + 1) =
      used ++ more := by
    rw [List.append_assoc]
    exact List.drop_left' (by simp)
  rw [deserializeState_eq, if_pos header, behind, reads more, Option.map_some, position,
    List.length_append, Nat.add_sub_cancel]

/-- What is accepted starts with a header and tables. -/
theorem deserializeState_some {h : Hashers} {data : Bytes} {c : Nat}
    {tables : HashMap Str (Bytes × UInt8) × HashMap Str SessionState}
    (accepted : deserializeState h data = .ok (some (tables, c))) :
    ∃ used more, data = STATE_MAGIC ++ [STATE_VERSION] ++ used ++ more ∧
      Reads (takeState h) used tables ∧ c = (STATE_MAGIC ++ [STATE_VERSION] ++ used).length := by
  rw [deserializeState_eq] at accepted
  split at accepted
  next header =>
    obtain ⟨⟨tables', rest⟩, read, same⟩ := Option.map_eq_some_iff.mp (Except.ok.inj accepted)
    cases same
    obtain ⟨used, parts, reads⟩ := takeState_exact h _ _ _ read
    have whole : data = STATE_MAGIC ++ [STATE_VERSION] ++ used ++ rest := by
      obtain ⟨behind, rfl⟩ := header
      rw [List.drop_left' (by simp)] at parts
      rw [parts, ← List.append_assoc]
    refine ⟨used, rest, whole, reads, ?_⟩
    rw [whole, List.length_append, Nat.add_sub_cancel]
  next => cases accepted

/-- With bytes of the tables missing, nothing is read. -/
theorem deserializeState_torn (h : Hashers) {used : Bytes}
    {tables : HashMap Str (Bytes × UInt8) × HashMap Str SessionState}
    (reads : Reads (takeState h) used tables) {torn missing : Bytes}
    (whole : torn ++ missing = STATE_MAGIC ++ [STATE_VERSION] ++ used) (nonempty : missing ≠ []) :
    deserializeState h torn = .ok none := by
  rw [deserializeState_eq]
  split
  next header =>
    -- the header is there, so the end is missing from the tables
    obtain ⟨rest, rfl⟩ := header
    rw [List.append_assoc, List.append_cancel_left_eq] at whole
    rw [List.drop_left' (by simp), reads.cut (takeState_exact h).locally whole nonempty]
    rfl
  next => rfl

/-- The decoder gives the answer that is read on the buffer. -/
theorem deserializeState_answer {h : Hashers} {data : Bytes}
    {answer : Option ((HashMap Str (Bytes × UInt8) × HashMap Str SessionState) × Nat)}
    (read : deserializeState h data = .ok answer) :
    MioBroker.deserializeState h data = answer.map Prod.fst := by
  rw [deserializeState_eq] at read
  rw [deserializeState_header, ← Except.ok.inj read]
  split
  · rw [Option.map_map]
    rfl
  · rfl

end Reader

/-- A truncated state file is detected, and bytes behind the end of a file are not looked at:
`deserialize_state` reads no byte out of range, whatever the input; of an accepted input it
consumes some number of bytes, refuses every shorter prefix and accepts every extension of these
bytes with the same result. -/
theorem deserialize_truncated (h : Hashers) :
    (∀ data, ∃ answer, Reader.deserializeState h data = .ok answer ∧
      deserializeState h data = answer.map Prod.fst) ∧
    ∀ data tables c, Reader.deserializeState h data = .ok (some (tables, c)) →
      c ≤ data.length ∧
      (∀ torn, torn <+: data → torn.length < c → Reader.deserializeState h torn = .ok none) ∧
      ∀ longer, data.take c <+: longer →
        Reader.deserializeState h longer = .ok (some (tables, c)) := by
  refine ⟨fun data => ?_, fun data tables c accepted => ?_⟩
  · have read := Reader.deserializeState_eq h data
    exact ⟨_, read, Reader.deserializeState_answer read⟩
  · obtain ⟨used, more, rfl, reads, rfl⟩ := Reader.deserializeState_some accepted
    refine ⟨by simp, fun torn start short => ?_, fun longer extended => ?_⟩
    · obtain ⟨missing, whole⟩ :=
        List.prefix_of_prefix_length_le start (List.prefix_append _ _) (Nat.le_of_lt short)
      refine Reader.deserializeState_torn h reads whole ?_
      rintro rfl
      rw [List.append_nil] at whole
      exact Nat.lt_irrefl _ (whole ▸ short)
    · rw [List.take_left] at extended
      obtain ⟨behind, rfl⟩ := extended
      exact Reader.deserializeState_reads h reads behind

end MioBroker
