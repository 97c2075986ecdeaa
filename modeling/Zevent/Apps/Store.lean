/-
# The STORE codec of rtservice

A `STORE` (two names and a value with its time) goes over the wire as the value with its NUL,
the eight bytes of the time, the database name and the key, each with its NUL.  Encoder and
decoder exist twice: `store_serialize` and `store_unserialize` in the server
(`rtinfoserver/src/store.c`), `serialize` and `unserialize` in the client
(`mod_rt/RT_Svr.c`).

The client's decoder takes the length of its two last copies from the destination,
`strlen(pstore->dbname) + 1`, and not from the message.  `store_roundtrip` says that the way
to the server always works, and for exactly which destinations the way back does;
`unserialize_into_cleared` is a destination for which it does not.

Reads and writes outside an array or the message are `none`, as is a `NULL` result.
-/
import Mathlib.Tactic
import Zevent.Lib.CString

namespace Zevent.Apps

open CString

/-! ## Records -/

/-- `MAX_VALUE_LEN`. -/
def maxValueLen : ℕ := 8192

/-- `key_len`, and `KEY_LEN` of the client. -/
def keyLen : ℕ := 256

/-- `sizeof(time_t)`. -/
def timeLen : ℕ := 8

/-- `DATA`.  The time is kept as its bytes. -/
structure Data where
  value : CharArray maxValueLen
  curTime : CharArray timeLen

/-- `STORE`. -/
structure Store where
  dbname : CharArray keyLen
  key : CharArray keyLen
  data : Data

/-- The three arrays hold strings. -/
structure Store.Terminated (s : Store) : Prop where
  dbname : 0 ∈ s.dbname.bytes
  key : 0 ∈ s.key.bytes
  value : 0 ∈ s.data.value.bytes

/-- The same strings and the same time. -/
structure Store.Same (s t : Store) : Prop where
  dbname : text s.dbname.bytes = text t.dbname.bytes
  key : text s.key.bytes = text t.key.bytes
  value : text s.data.value.bytes = text t.data.value.bytes
  curTime : s.data.curTime = t.data.curTime

/-! ## Encoders -/

/-- `memcpy` into the buffer at an offset. -/
def poke (buf : List UInt8) (p : ℕ) (bytes : List UInt8) : List UInt8 :=
  buf.take p ++ bytes ++ buf.drop (p + bytes.length)

/-- `data_serialize`: the buffer and the offset behind what was written. -/
def dataSerialize (d : Data) (buflen : ℕ) : Option (List UInt8 × ℕ) := do
  let n ← strlen d.value.bytes
  if buflen < timeLen + n + 1 then none
  else
    let buf := List.replicate buflen 0
    let buf := poke buf 0 (d.value.bytes.take (n + 1))
    let p := n + 1
    let buf := poke buf p d.curTime.bytes
    some (buf, p + timeLen)

/-- `store_serialize`. -/
def storeSerialize (s : Store) (buflen : ℕ) : Option (List UInt8 × ℕ) := do
  let n ← strlen s.dbname.bytes
  let m ← strlen s.key.bytes
  let l ← strlen s.data.value.bytes
  if buflen < n + 1 + m + 1 + timeLen + l + 1 then none
  else
    let (buf, p) ← dataSerialize s.data buflen
    let buf := poke buf p (s.dbname.bytes.take (n + 1))
    let p := p + (n + 1)
    let buf := poke buf p (s.key.bytes.take (m + 1))
    some (buf, p + (m + 1))

/-- `serialize` of the client, line by line what the server does. -/
def serialize (s : Store) (buflen : ℕ) : Option (List UInt8 × ℕ) := storeSerialize s buflen

/-! ## Decoders -/

/-- `data_unserialize`. -/
def dataUnserialize (d : Data) (buffer : List UInt8) : Option (Data × ℕ) := do
  let n ← strlen buffer
  let value ← memcpy d.value buffer (n + 1)
  let p := n + 1
  let curTime ← memcpy d.curTime (buffer.drop p) timeLen
  some (⟨value, curTime⟩, p + timeLen)

/-- `store_unserialize`. -/
def storeUnserialize (s : Store) (buffer : List UInt8) : Option (Store × ℕ) := do
  let (data, p) ← dataUnserialize s.data buffer
  let n ← strlen (buffer.drop p)
  let dbname ← memcpy s.dbname (buffer.drop p) (n + 1)
  let p := p + (n + 1)
  let m ← strlen (buffer.drop p)
  let key ← memcpy s.key (buffer.drop p) (m + 1)
  some (⟨dbname, key, data⟩, p + (m + 1))

/-- `unserialize` of the client. -/
def unserialize (s : Store) (buffer : List UInt8) : Option (Store × ℕ) := do
  let n ← strlen buffer
  let value ← memcpy s.data.value buffer (n + 1)
  let n ← strlen value.bytes
  let p := n + 1
  let curTime ← memcpy s.data.curTime (buffer.drop p) timeLen
  let p := p + timeLen
  -- the length of the destination, not of the message
  let k ← strlen s.dbname.bytes
  let dbname ← memcpy s.dbname (buffer.drop p) (k + 1)
  let n ← strlen (buffer.drop p)
  let p := p + (n + 1)
  let k ← strlen s.key.bytes
  let key ← memcpy s.key (buffer.drop p) (k + 1)
  let n ← strlen (buffer.drop p)
  some (⟨dbname, key, ⟨value, curTime⟩⟩, p + (n + 1))

/-! ## What the encoders write -/

/-- The message of a value and its time. -/
def Data.wire (d : Data) : List UInt8 := text d.value.bytes ++ 0 :: d.curTime.bytes

/-- The message of a record. -/
def Store.wire (s : Store) : List UInt8 :=
  text s.data.value.bytes ++ 0 :: (s.data.curTime.bytes
    ++ (text s.dbname.bytes ++ 0 :: (text s.key.bytes ++ [0])))

/-- The size of the data on the wire: the value, its NUL and the time. -/
theorem Data.length_wire (d : Data) :
    d.wire.length = (text d.value.bytes).length + 1 + timeLen := by
  have := d.curTime.size
  rw [wire, List.length_append, List.length_cons]
  omega

/-- A record is its data and two strings. -/
theorem Store.wire_eq (s : Store) : s.wire
    = s.data.wire ++ (text s.dbname.bytes ++ [0]) ++ (text s.key.bytes ++ [0]) := by
  simp [Store.wire, Data.wire]

/-- The size of a record on the wire: its data and both names. -/
theorem Store.length_wire (s : Store) :
    s.wire.length = (text s.data.value.bytes).length + 1 + timeLen
      + (text s.dbname.bytes).length + 1 + (text s.key.bytes).length + 1 := by
  rw [wire_eq, List.length_append, List.length_append, s.data.length_wire, List.length_append,
    List.length_append, List.length_singleton]
  omega

/-- Writing behind what is written so far, into a cleared rest. -/
theorem poke_cleared {front bytes : List UInt8} {k p : ℕ} (hp : p = front.length) :
    poke (front ++ List.replicate k 0) p bytes
      = (front ++ bytes) ++ List.replicate (k - bytes.length) 0 := by
  subst hp
  unfold poke
  rw [List.take_left, List.drop_append, List.drop_eq_nil_of_le (by omega), List.nil_append,
    Nat.add_sub_cancel_left, List.drop_replicate]

theorem strlen_text {m : List UInt8} (h : 0 ∈ m) : strlen m = some (text m).length :=
  strlen_eq_some_iff.mpr ⟨h, rfl⟩

/-- `data_serialize` writes the message and leaves the rest of the buffer cleared. -/
theorem dataSerialize_eq {d : Data} {buflen : ℕ} (hd : 0 ∈ d.value.bytes)
    (hfits : d.wire.length ≤ buflen) :
    dataSerialize d buflen
      = some (d.wire ++ List.replicate (buflen - d.wire.length) 0, d.wire.length) := by
  have hlen := d.length_wire
  have htime := d.curTime.size
  have hstart : List.replicate buflen (0 : UInt8) = [] ++ List.replicate buflen 0 := rfl
  have hwire : [] ++ (text d.value.bytes ++ [0]) ++ d.curTime.bytes = d.wire := by
    simp [Data.wire]
  unfold dataSerialize
  simp only [strlen_text hd, take_text_succ hd, Option.bind_eq_bind, Option.bind_some]
  rw [if_neg (by omega), hstart, poke_cleared (by rfl), poke_cleared (by simp), hwire]
  congr 3
  · simp [htime]
    omega
  · omega

/-- The encoders write the message and leave the rest of the buffer cleared. -/
theorem storeSerialize_eq {s : Store} {buflen : ℕ} (hs : s.Terminated)
    (hfits : s.wire.length ≤ buflen) :
    storeSerialize s buflen
      = some (s.wire ++ List.replicate (buflen - s.wire.length) 0, s.wire.length) := by
  have hlen := s.length_wire
  have hdata := s.data.length_wire
  have hroom : s.data.wire.length ≤ buflen := by omega
  unfold storeSerialize
  simp only [strlen_text hs.dbname, strlen_text hs.key, strlen_text hs.value,
    take_text_succ hs.dbname, take_text_succ hs.key, dataSerialize_eq hs.value hroom,
    Option.bind_eq_bind, Option.bind_some]
  rw [if_neg (by omega), poke_cleared (by rfl), poke_cleared (by simp), ← s.wire_eq]
  congr 3
  · simp
    omega
  · omega

/-! ## What the decoders read -/

/-- A string and its NUL in front of memory, skipped. -/
theorem drop_string (s r : List UInt8) : (s ++ 0 :: r).drop (s.length + 1) = r := by
  rw [List.append_cons]
  exact List.drop_left' (by simp)

/-- An array copied as a whole. -/
theorem memcpy_array {n : ℕ} (a t : CharArray n) (r : List UInt8) :
    memcpy a (t.bytes ++ r) n = some t := by
  have hfits : n ≤ n ∧ n ≤ (t.bytes ++ r).length := by
    rw [List.length_append, t.size]
    omega
  have htake : (t.bytes ++ r).take n ++ a.bytes.drop n = t.bytes := by
    rw [List.take_left' t.size, List.drop_eq_nil_of_le (by rw [a.size]), List.append_nil]
  unfold memcpy
  rw [dif_pos hfits, Option.some.injEq]
  exact CharArray.ext htake

section Decode

variable {src : Store} {rest : List UInt8}

/-- The message behind the value and the time, with what follows it. -/
def Store.names (s : Store) (rest : List UInt8) : List UInt8 :=
  text s.dbname.bytes ++ 0 :: (text s.key.bytes ++ 0 :: rest)

/-- The value and its NUL come first. -/
theorem wire_append (src : Store) (rest : List UInt8) :
    src.wire ++ rest
      = text src.data.value.bytes ++ 0 :: (src.data.curTime.bytes ++ src.names rest) := by
  simp [Store.wire, Store.names]

theorem drop_value : (src.wire ++ rest).drop ((text src.data.value.bytes).length + 1)
    = src.data.curTime.bytes ++ src.names rest := by
  rw [wire_append, drop_string]

/-- Behind the time comes the name of the database. -/
theorem drop_time : (src.wire ++ rest).drop ((text src.data.value.bytes).length + 1 + timeLen)
    = src.names rest := by
  rw [← List.drop_drop, drop_value]
  exact List.drop_left' src.data.curTime.size

theorem drop_dbname : (src.wire ++ rest).drop
    ((text src.data.value.bytes).length + 1 + timeLen + ((text src.dbname.bytes).length + 1))
      = text src.key.bytes ++ 0 :: rest := by
  rw [← List.drop_drop, drop_time]
  exact drop_string _ _

/-- `strlen` of what is received is the length of the value. -/
theorem strlen_wire : strlen (src.wire ++ rest) = some (text src.data.value.bytes).length := by
  rw [wire_append]
  exact strlen_append_nul (nul_notMem_text _)

/-- `strlen` behind the time is the length of the name. -/
theorem strlen_names : strlen (src.names rest) = some (text src.dbname.bytes).length :=
  strlen_append_nul (nul_notMem_text _)

theorem strlen_key : strlen (text src.key.bytes ++ 0 :: rest) = some (text src.key.bytes).length :=
  strlen_append_nul (nul_notMem_text _)

/-- The value is copied whatever the destination held. -/
theorem memcpy_value (dst : Store) (rest : List UInt8) (h : 0 ∈ src.data.value.bytes) :
    ∃ value, memcpy dst.data.value (src.wire ++ rest) ((text src.data.value.bytes).length + 1)
        = some value ∧ text value.bytes = text src.data.value.bytes ∧ 0 ∈ value.bytes := by
  rw [wire_append]
  exact memcpy_string _ (nul_notMem_text _) (length_text_lt h)

/-- The server reads a message back into any record. -/
theorem storeUnserialize_wire (dst : Store) (rest : List UInt8) (hs : src.Terminated) :
    ∃ dst', storeUnserialize dst (src.wire ++ rest) = some (dst', src.wire.length)
      ∧ dst'.Same src := by
  obtain ⟨value, hvalue, htext, -⟩ := memcpy_value dst rest hs.value
  obtain ⟨dbname, hdbname, hdbtext, -⟩ := memcpy_string dst.dbname
    (r := text src.key.bytes ++ 0 :: rest) (nul_notMem_text src.dbname.bytes)
    (length_text_lt hs.dbname)
  obtain ⟨key, hkey, hkeytext, -⟩ := memcpy_string dst.key (r := rest)
    (nul_notMem_text src.key.bytes) (length_text_lt hs.key)
  refine ⟨⟨dbname, key, ⟨value, src.data.curTime⟩⟩, ?_, hdbtext, hkeytext, htext, rfl⟩
  have hdbcopy : memcpy dst.dbname (src.names rest) ((text src.dbname.bytes).length + 1)
      = some dbname := hdbname
  have hlen := src.length_wire
  unfold storeUnserialize dataUnserialize
  simp only [strlen_wire, hvalue, drop_value, memcpy_array, drop_time, strlen_names, hdbcopy,
    drop_dbname, strlen_key, hkey, Option.bind_eq_bind, Option.bind_some, Option.some.injEq,
    Prod.mk.injEq, true_and]
  omega

/-- A copy that takes its length from the array: there are as many bytes to read, and the
string of the array is long enough, or what is behind its NUL goes on with the rest of the new
string. -/
def Takes {n : ℕ} (a : CharArray n) (s : List UInt8) (avail : ℕ) : Prop :=
  ∃ k, strlen a.bytes = some k ∧ k + 1 ≤ avail
    ∧ (s.length ≤ k ∨ text (a.bytes.drop (k + 1)) = s.drop (k + 1))

/-- `Takes` is what such a copy needs. -/
theorem takes_iff {n : ℕ} {a : CharArray n} {s r : List UInt8} (hs : 0 ∉ s) :
    (∃ k a', strlen a.bytes = some k ∧ memcpy a (s ++ 0 :: r) (k + 1) = some a'
        ∧ text a'.bytes = s)
      ↔ Takes a s (s ++ 0 :: r).length := by
  constructor
  · rintro ⟨k, a', hk, hcopy, htext⟩
    unfold memcpy at hcopy
    split_ifs at hcopy with hfits
    rw [Option.some.injEq] at hcopy
    subst hcopy
    exact ⟨k, hk, hfits.2, (text_overlay_iff hs).mp htext⟩
  · rintro ⟨k, hk, havail, htext⟩
    obtain ⟨hnul, hlen⟩ := strlen_eq_some_iff.mp hk
    have hroom := length_text_lt hnul
    exact ⟨k, _, hk, dif_pos ⟨by omega, havail⟩, (text_overlay_iff hs).mpr htext⟩

/-- The two copies of the client that take their length from the destination; the rest of the
decoder always works. -/
theorem unserialize_wire (dst : Store) (rest : List UInt8) (hs : src.Terminated) :
    ∃ value : CharArray maxValueLen, text value.bytes = text src.data.value.bytes
      ∧ unserialize dst (src.wire ++ rest) = (do
          let k ← strlen dst.dbname.bytes
          let dbname ← memcpy dst.dbname (src.names rest) (k + 1)
          let k ← strlen dst.key.bytes
          let key ← memcpy dst.key (text src.key.bytes ++ 0 :: rest) (k + 1)
          some (⟨dbname, key, ⟨value, src.data.curTime⟩⟩, src.wire.length)) := by
  obtain ⟨value, hvalue, htext, hnul⟩ := memcpy_value dst rest hs.value
  refine ⟨value, htext, ?_⟩
  have hlen := src.length_wire
  have hend : (text src.data.value.bytes).length + 1 + timeLen
      + ((text src.dbname.bytes).length + 1) + ((text src.key.bytes).length + 1)
      = src.wire.length := by omega
  unfold unserialize
  simp only [strlen_wire, hvalue, strlen_text hnul, htext, drop_value, memcpy_array, drop_time,
    strlen_names, drop_dbname, strlen_key, hend, Option.bind_eq_bind, Option.bind_some]

/-- The client reads a message back exactly into the records whose two names take it. -/
theorem unserialize_wire_iff (dst : Store) (rest : List UInt8) (hs : src.Terminated) :
    (∃ dst', unserialize dst (src.wire ++ rest) = some (dst', src.wire.length) ∧ dst'.Same src)
      ↔ Takes dst.dbname (text src.dbname.bytes) (src.names rest).length
        ∧ Takes dst.key (text src.key.bytes) (text src.key.bytes ++ 0 :: rest).length := by
  obtain ⟨value, hvalue, heq⟩ := unserialize_wire dst rest hs
  rw [heq, Store.names, ← takes_iff (nul_notMem_text _), ← takes_iff (nul_notMem_text _)]
  simp only [Option.bind_eq_bind, Option.bind_eq_some_iff]
  constructor
  · rintro ⟨dst', ⟨k, hk, dbname, hdbname, l, hl, key, hkey, hdst⟩, hsame⟩
    rw [Option.some.injEq, Prod.mk.injEq] at hdst
    obtain ⟨rfl, -⟩ := hdst
    exact ⟨⟨k, dbname, hk, hdbname, hsame.dbname⟩, ⟨l, key, hl, hkey, hsame.key⟩⟩
  · rintro ⟨⟨k, dbname, hk, hdbname, hdbtext⟩, ⟨l, key, hl, hkey, hkeytext⟩⟩
    exact ⟨_, ⟨k, hk, dbname, hdbname, l, hl, key, hkey, rfl⟩, hdbtext, hkeytext, hvalue, rfl⟩

end Decode

/-! ## Round trips -/

/-- **The codec in both directions.**  For every record of strings whose message fits the
buffer: what the client writes the server reads back into any record, reading exactly what was
written; what the server writes the client reads back in the same way exactly when both names
of the destination take the new ones. -/
theorem store_roundtrip (src : Store) (buflen : ℕ) (hs : src.Terminated)
    (hfits : src.wire.length ≤ buflen) :
    (∃ buf, serialize src buflen = some (buf, src.wire.length)
        ∧ ∀ dst rest, ∃ dst', storeUnserialize dst (buf.take src.wire.length ++ rest)
            = some (dst', src.wire.length) ∧ dst'.Same src)
      ∧ ∃ buf, storeSerialize src buflen = some (buf, src.wire.length)
        ∧ ∀ dst rest, (∃ dst', unserialize dst (buf.take src.wire.length ++ rest)
              = some (dst', src.wire.length) ∧ dst'.Same src)
            ↔ Takes dst.dbname (text src.dbname.bytes)
                ((text src.dbname.bytes).length + 1 + ((text src.key.bytes).length + 1)
                  + rest.length)
              ∧ Takes dst.key (text src.key.bytes)
                ((text src.key.bytes).length + 1 + rest.length) := by
  have hwrite := storeSerialize_eq hs hfits
  refine ⟨⟨_, hwrite, ?_⟩, ⟨_, hwrite, ?_⟩⟩
  · intro dst rest
    rw [List.take_left]
    exact storeUnserialize_wire dst rest hs
  · intro dst rest
    rw [List.take_left, unserialize_wire_iff dst rest hs]
    have hnames : (src.names rest).length = (text src.dbname.bytes).length + 1
        + ((text src.key.bytes).length + 1) + rest.length := by
      simp only [Store.names, List.length_append, List.length_cons]
      omega
    have hkey : (text src.key.bytes ++ 0 :: rest).length
        = (text src.key.bytes).length + 1 + rest.length := by
      simp only [List.length_append, List.length_cons]
      omega
    rw [hnames, hkey]

/-- The record with these names, a value of one byte and the time zero. -/
def sampleStore (dbname key : List UInt8) (hd : dbname.length < keyLen) (hk : key.length < keyLen) :
    Store where
  dbname := .ofText dbname keyLen hd
  key := .ofText key keyLen hk
  data := ⟨.ofText [118] maxValueLen (by decide), ⟨List.replicate 8 0, rfl⟩⟩

/-- The record `"db"`, `"k"`, `"v"`. -/
def dbRecord : Store := sampleStore [100, 98] [107] (by decide) (by decide)

/-- A record without names. -/
def clearedRecord : Store := sampleStore [] [] (by decide) (by decide)

theorem dbRecord_terminated : dbRecord.Terminated where
  dbname := List.mem_append_right _ List.mem_cons_self
  key := List.mem_append_right _ List.mem_cons_self
  value := List.mem_append_right _ List.mem_cons_self

theorem dbRecord_dbname : text dbRecord.dbname.bytes = [100, 98] :=
  text_append_nul (by decide)

theorem dbRecord_key : text dbRecord.key.bytes = [107] := text_append_nul (by decide)

theorem dbRecord_length_wire : dbRecord.wire.length = 15 := by
  have hvalue : text dbRecord.data.value.bytes = [118] := text_append_nul (by decide)
  rw [dbRecord.length_wire, hvalue, dbRecord_dbname, dbRecord_key]
  rfl

/-- A record read back into the record it was asked for with, as `exec_c` does. -/
theorem store_roundtrip_same_names :
    dbRecord.Terminated ∧ dbRecord.wire.length ≤ 100
      ∧ ∃ buf, storeSerialize dbRecord 100 = some (buf, dbRecord.wire.length)
        ∧ ∃ dst', unserialize dbRecord (buf.take dbRecord.wire.length ++ [])
            = some (dst', dbRecord.wire.length) ∧ dst'.Same dbRecord := by
  have hfits : dbRecord.wire.length ≤ 100 := by rw [dbRecord_length_wire]; decide
  obtain ⟨-, buf, hbuf, hread⟩ := store_roundtrip dbRecord 100 dbRecord_terminated hfits
  refine ⟨dbRecord_terminated, hfits, buf, hbuf, (hread dbRecord []).mpr ⟨?_, ?_⟩⟩
  · exact ⟨_, strlen_text dbRecord_terminated.dbname, by omega, Or.inl le_rfl⟩
  · exact ⟨_, strlen_text dbRecord_terminated.key, by omega, Or.inl le_rfl⟩

/-- **A cleared record takes one byte of a name.**  Its names are empty, so the client copies
one byte of `"db"` and leaves the NUL behind it. -/
theorem unserialize_into_cleared :
    dbRecord.Terminated ∧ dbRecord.wire.length ≤ 100
      ∧ ∃ buf, storeSerialize dbRecord 100 = some (buf, dbRecord.wire.length)
        ∧ ¬ ∃ dst', unserialize clearedRecord (buf.take dbRecord.wire.length ++ [])
            = some (dst', dbRecord.wire.length) ∧ dst'.Same dbRecord := by
  have hfits : dbRecord.wire.length ≤ 100 := by rw [dbRecord_length_wire]; decide
  refine ⟨dbRecord_terminated, hfits, _, storeSerialize_eq dbRecord_terminated hfits, ?_⟩
  rw [List.take_left, unserialize_wire_iff clearedRecord [] dbRecord_terminated, dbRecord_dbname]
  rintro ⟨⟨k, hk, -, htakes⟩, -⟩
  have hempty : strlen clearedRecord.dbname.bytes = some 0 :=
    strlen_append_nul (s := []) (by decide)
  rw [hempty, Option.some.injEq] at hk
  subst hk
  -- behind the NUL of the cleared name there is another NUL, not the `b`
  have hbehind : text (clearedRecord.dbname.bytes.drop 1) = [] := rfl
  rw [hbehind] at htakes
  revert htakes
  decide

end Zevent.Apps
