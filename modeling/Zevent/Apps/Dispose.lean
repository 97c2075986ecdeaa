/-
# Requests of the rtservice server (`rtinfoserver/src/rtserver.c`, `bdb_svc.c`)

`dispose` gets a buffer of `BUFFER_SIZE` bytes: what `apr_bucket_alloc` returned, with the body
of the request received over it from the fifth byte on.  For a GET and a SET it decodes the
record behind the command with `store_unserialize`, whose copies are as long as the strings it
finds; the length that it is given is not used.  Then the record is looked for or stored, and
the reply is written into the same buffer.

* `store_unserialize_inside_iff` says for which requests the decoding stays inside the three
  arrays and the buffer: those that go on with the message of a record.
* `rtservice_refines` says what the server is for: it is a map of keys to records.  Requests
  that are decoded inside are answered as by that map, byte for byte, and everything stays
  inside the buffer.

The database is a parameter; reads and writes outside of an array or the buffer are `none`.
-/
import Zevent.Apps.Rtserver
import Zevent.Apps.Store

namespace Zevent.Apps

open CString

/-! ## Messages -/

/-- `CMD_DATA_GET`. -/
def cmdDataGet : ℕ := 0x00020001

/-- `CMD_DATA_SET`. -/
def cmdDataSet : ℕ := 0x00020002

/-- `CMD_SUCCESSFUL`. -/
def cmdSuccessful : ℕ := 0x11111111

/-- `CMD_FAIL`. -/
def cmdFail : ℕ := 0x00000000

/-- The command: four bytes behind the length. -/
def command (msg : List UInt8) : ℕ := msgLen ((msg.drop 4).take 4)

/-- `tdata.data`. -/
def tdataData (msg : List UInt8) : List UInt8 := msg.drop (4 + 4)

/-- A request that `zevent_process_connection` hands to `dispose`. -/
structure Request where
  /-- What `apr_bucket_alloc` returned. -/
  old : List UInt8
  size : old.length = bufferSize
  deliver : ℕ → ℕ+
  before : Socket
  after : Socket
  body : List UInt8
  admitted : zeventProcessConnection deliver before = some (body, after)

/-- The buffer when `dispose` is called. -/
def Request.msg (r : Request) : List UInt8 := poke r.old 4 r.body

/-! ## The database -/

/-- The calls of `DB`: `put` fails or leaves another database, `get` finds a record or not. -/
structure Bdb (δ : Type) where
  put : δ → List UInt8 → List UInt8 → Option δ
  get : δ → List UInt8 → Option (List UInt8)

section Dispose

variable {δ : Type} (dbp : Bdb δ) (db : δ)

/-- `set_store`: `some none` is the result -1. -/
def setStore (store : Store) : Option (Option δ) := do
  let n ← strlen store.key.bytes
  let (buf, size) ← dataSerialize store.data bufferSize
  some (dbp.put db (store.key.bytes.take (n + 1)) (buf.take size))

/-- `get_store`: `some none` is a result that is not zero. -/
def getStore (store : Store) : Option (Option Store) := do
  let n ← strlen store.key.bytes
  match dbp.get db (store.key.bytes.take (n + 1)) with
  | none => some none
  | some record =>
      -- with `DB_DBT_USERMEM` a record that is longer than `ulen` is an error
      if bufferSize < record.length then some none
      else
        let buf := poke (List.replicate bufferSize 0) 0 record
        let (data, _) ← dataUnserialize store.data buf
        some (some { store with data })

/-! ## `dispose` -/

/-- The end of `dispose`: command, result and length, and how much is sent. -/
def reply (msg : List UInt8) (cmd result slen : ℕ) : List UInt8 × ℕ :=
  let msg := poke msg 4 (lengthBytes cmd)
  let msg := poke msg 8 (lengthBytes result)
  let slen := slen + 8
  (poke msg 0 (lengthBytes slen), slen + 4)

/-- The branch of `CMD_DATA_GET`. -/
def disposeGet (store : Store) (msg : List UInt8) : Option (δ × List UInt8 × ℕ) := do
  let (store, _) ← storeUnserialize store (tdataData msg)
  match ← getStore dbp db store with
  | none => some (db, reply msg (command msg) cmdFail 0)
  | some store =>
      -- a record that was decoded is never too long for the reply
      let (sendInfo, slen) ← storeSerialize store (bufferSize - 12)
      some (db, reply (poke msg 12 sendInfo) (command msg) cmdSuccessful slen)

/-- The branch of `CMD_DATA_SET`. -/
def disposeSet (store : Store) (msg : List UInt8) : Option (δ × List UInt8 × ℕ) := do
  let (store, _) ← storeUnserialize store (tdataData msg)
  match ← setStore dbp db store with
  | none => some (db, reply msg (command msg) cmdFail 0)
  | some db => some (db, reply msg (command msg) cmdSuccessful 0)

/-- `dispose`, with the clock and what the record on the stack held before. -/
def dispose (now : CharArray timeLen) (junk : Store) (msg : List UInt8) :
    Option (δ × List UInt8 × ℕ) :=
  let store := { junk with data.curTime := now }
  if command msg = cmdDataGet then disposeGet dbp db store msg
  else if command msg = cmdDataSet then disposeSet dbp db store msg
  else some (db, reply msg (command msg) cmdFail 0)

end Dispose

/-! ## The buffer -/

theorem length_lengthBytes (n : ℕ) : (lengthBytes n).length = 4 := rfl

/-- A write inside of a buffer does not change its size. -/
theorem length_poke {buf bytes : List UInt8} {p : ℕ} (h : p + bytes.length ≤ buf.length) :
    (poke buf p bytes).length = buf.length := by
  rw [poke, List.length_append, List.length_append, List.length_take, List.length_drop]
  omega

/-- A receive returns no more than it was asked for. -/
theorem aprSocketRecv_length {deliver : ℕ → ℕ+} {s s' : Socket} {len : ℕ} {bytes : List UInt8}
    (h : aprSocketRecv deliver s len = some (bytes, s')) : bytes.length ≤ len := by
  rw [aprSocketRecv] at h
  split_ifs at h
  rw [Option.some.injEq, Prod.mk.injEq] at h
  rw [← h.1, List.length_take]
  omega

/-- What is received fits behind the length. -/
theorem Request.length_body (r : Request) : r.body.length ≤ bufferSize - 4 := by
  have h := r.admitted
  rw [zeventProcessConnection, Option.bind_eq_bind, Option.bind_eq_some_iff] at h
  obtain ⟨⟨length, s⟩, -, h⟩ := h
  dsimp only at h
  split_ifs at h with hbad
  have := aprSocketRecv_length h
  omega

/-- A request fills its buffer. -/
theorem Request.length_msg (r : Request) : r.msg.length = bufferSize := by
  have hbody := r.length_body
  have hbuf : 4 ≤ bufferSize := by decide
  rw [msg, length_poke, r.size]
  rw [r.size]
  omega

/-! ## What was decoded -/

/-- A string that was copied with its NUL is in front of the memory it was copied from. -/
theorem string_copied {n k : ℕ} {a a' : CharArray n} {m : List UInt8} (hk : strlen m = some k)
    (hcopy : memcpy a m (k + 1) = some a') :
    0 ∈ a'.bytes ∧ m = text a'.bytes ++ 0 :: m.drop (k + 1) := by
  obtain ⟨hnul, hlen⟩ := strlen_eq_some_iff.mp hk
  obtain ⟨r, hr⟩ := eq_text_append hnul
  have hroom : (text m).length < n := by
    unfold memcpy at hcopy
    split_ifs at hcopy with hfits
    omega
  obtain ⟨a'', hcopy', htext, hmem⟩ := memcpy_string a (r := r) (nul_notMem_text m) hroom
  rw [← hr, hlen, hcopy, Option.some.injEq] at hcopy'
  subst hcopy'
  have hdrop : m.drop (k + 1) = r := by
    conv_lhs => rw [hr, ← hlen]
    exact drop_string _ _
  refine ⟨hmem, ?_⟩
  rw [htext, hdrop]
  exact hr

/-- An array that was filled is in front of the memory it was filled from. -/
theorem array_copied {n : ℕ} {a a' : CharArray n} {m : List UInt8}
    (hcopy : memcpy a m n = some a') : m = a'.bytes ++ m.drop n := by
  unfold memcpy at hcopy
  split_ifs at hcopy with hfits
  rw [Option.some.injEq] at hcopy
  have htake : a'.bytes = m.take n := by
    rw [← hcopy]
    show m.take n ++ a.bytes.drop n = m.take n
    rw [List.drop_eq_nil_of_le a.size.le, List.append_nil]
  rw [htake, List.take_append_drop]

/-- What `data_unserialize` has decoded is in front of the memory. -/
theorem dataUnserialize_eq_some {d d' : Data} {m : List UInt8} {p : ℕ}
    (h : dataUnserialize d m = some (d', p)) :
    0 ∈ d'.value.bytes ∧ m = d'.wire ++ m.drop p := by
  unfold dataUnserialize at h
  simp only [Option.bind_eq_bind, Option.bind_eq_some_iff, Option.some.injEq,
    Prod.mk.injEq] at h
  obtain ⟨n, hn, value, hvalue, curTime, htime, rfl, rfl⟩ := h
  obtain ⟨hnul, hm⟩ := string_copied hn hvalue
  have ht := array_copied htime
  refine ⟨hnul, ?_⟩
  rw [Data.wire, List.append_assoc, List.cons_append, ← List.drop_drop, ← ht]
  exact hm

/-- What `store_unserialize` has decoded is in front of the memory. -/
theorem storeUnserialize_eq_some {s s' : Store} {m : List UInt8} {p : ℕ}
    (h : storeUnserialize s m = some (s', p)) : s'.Terminated ∧ m = s'.wire ++ m.drop p := by
  unfold storeUnserialize at h
  simp only [Option.bind_eq_bind, Option.bind_eq_some_iff, Option.some.injEq,
    Prod.mk.injEq] at h
  obtain ⟨⟨data, q⟩, hdata, n, hn, dbname, hdbname, l, hl, key, hkey, rfl, rfl⟩ := h
  obtain ⟨hvalue, hm⟩ := dataUnserialize_eq_some hdata
  obtain ⟨hdb, hmdb⟩ := string_copied hn hdbname
  obtain ⟨hk, hmkey⟩ := string_copied hl hkey
  refine ⟨⟨hdb, hk, hvalue⟩, ?_⟩
  rw [List.drop_drop] at hmdb hmkey
  simp only [Store.wire_eq, List.append_assoc, List.cons_append, List.nil_append]
  rw [← hmkey, ← hmdb]
  exact hm

/-- **The server decodes exactly the messages of records.** -/
theorem storeUnserialize_isSome_iff (s : Store) (m : List UInt8) :
    (storeUnserialize s m).isSome ↔ ∃ src : Store, src.Terminated ∧ src.wire <+: m := by
  constructor
  · intro h
    obtain ⟨⟨s', p⟩, hs'⟩ := Option.isSome_iff_exists.mp h
    obtain ⟨hterminated, hm⟩ := storeUnserialize_eq_some hs'
    exact ⟨s', hterminated, _, hm.symm⟩
  · rintro ⟨src, hsrc, rest, rfl⟩
    obtain ⟨dst, hdst, -⟩ := storeUnserialize_wire s rest hsrc
    rw [hdst]
    rfl

/-- **Which requests are decoded inside.**  When `dispose` calls `store_unserialize` on the
buffer of a request that was admitted, no array is overrun and nothing is read outside of the
buffer if and only if the buffer goes on with the message of a record behind the command. -/
theorem store_unserialize_inside_iff (r : Request) :
    ((command r.msg = cmdDataGet ∨ command r.msg = cmdDataSet) →
        ∀ store, (storeUnserialize store (tdataData r.msg)).isSome)
      ↔ (command r.msg ≠ cmdDataGet ∧ command r.msg ≠ cmdDataSet)
        ∨ ∃ src : Store, src.Terminated ∧ src.wire <+: tdataData r.msg := by
  rw [← not_or]
  constructor
  · intro h
    by_cases hcmd : command r.msg = cmdDataGet ∨ command r.msg = cmdDataSet
    · exact .inr ((storeUnserialize_isSome_iff _ _).mp (h hcmd clearedRecord))
    · exact .inl hcmd
  · rintro (hcmd | hsrc) hcall store
    · exact absurd hcall hcmd
    · exact (storeUnserialize_isSome_iff _ _).mpr hsrc

/-- The buffer behind the length: the body, and what it did not reach. -/
theorem Request.drop_msg (r : Request) :
    r.msg.drop 4 = r.body ++ r.old.drop (4 + r.body.length) := by
  have hbuf : 4 ≤ bufferSize := by decide
  rw [msg, poke, List.append_assoc]
  apply List.drop_left'
  rw [List.length_take, r.size, Nat.min_eq_left hbuf]

/-- A value that has no room for its NUL in `MAX_VALUE_LEN` bytes. -/
theorem storeUnserialize_long {s v r : List UInt8} (store : Store) (hv : 0 ∉ v)
    (hlong : maxValueLen ≤ v.length) (hs : s = v ++ 0 :: r) : storeUnserialize store s = none := by
  have hcopy : memcpy store.data.value s (v.length + 1) = none := by
    unfold memcpy
    rw [dif_neg (by omega)]
  unfold storeUnserialize dataUnserialize
  rw [hs] at hcopy ⊢
  simp only [strlen_append_nul hv, hcopy, Option.bind_eq_bind, Option.bind_some,
    Option.bind_none]

/-- A SET of a value of 8192 bytes. -/
def longValueBody : List UInt8 :=
  lengthBytes cmdDataSet ++ (List.replicate 8192 97 ++ 0 :: List.replicate 10 0)

theorem length_longValueBody : longValueBody.length = 8207 := by
  rw [longValueBody, List.length_append, length_lengthBytes, List.length_append,
    List.length_cons, List.length_replicate, List.length_replicate]

/-- A request with `longValueBody` that is received whole. -/
def longValueRequest : Request where
  old := List.replicate bufferSize 0
  size := List.length_replicate
  deliver := fun _ => 16384
  before := ⟨lengthBytes longValueBody.length ++ (longValueBody ++ []), 0⟩
  after := ⟨[], 2⟩
  body := longValueBody
  admitted := by
    have hlen := length_longValueBody
    rw [process_whole_length ⟨by omega, by rw [hlen]; decide⟩ (by decide)]
    apply aprSocketRecv_whole
    · exact List.append_ne_nil_of_left_ne_nil (List.cons_ne_nil _ _) _
    · rw [hlen]
      decide

/-- **A long value overruns the record.**  The request is admitted, and whatever the record held,
`store_unserialize` leaves it. -/
theorem long_value_overruns :
    command longValueRequest.msg = cmdDataSet
      ∧ ∀ store, storeUnserialize store (tdataData longValueRequest.msg) = none := by
  have hmsg := longValueRequest.drop_msg
  have hbody : longValueRequest.body
      = lengthBytes cmdDataSet ++ (List.replicate 8192 97 ++ 0 :: List.replicate 10 0) := rfl
  generalize longValueRequest.old.drop (4 + longValueRequest.body.length) = rest at hmsg
  rw [hbody, List.append_assoc] at hmsg
  constructor
  · rw [command, hmsg, List.take_left' (length_lengthBytes _)]
    decide
  · intro store
    have hdata : tdataData longValueRequest.msg
        = List.replicate 8192 97 ++ 0 :: (List.replicate 10 0 ++ rest) := by
      rw [tdataData, ← List.drop_drop, hmsg, List.drop_left' (length_lengthBytes _),
        List.append_assoc, List.cons_append]
    have hnul : (0 : UInt8) ∉ List.replicate 8192 97 := by
      intro h
      exact absurd (List.eq_of_mem_replicate h) (by decide)
    apply storeUnserialize_long store hnul _ hdata
    rw [List.length_replicate, maxValueLen]

/-! ## The server as a map -/

/-- What is kept under a key: a value that fits into its array with a NUL, and its time. -/
structure Record where
  value : List UInt8
  curTime : CharArray timeLen
  nul_notMem : 0 ∉ value
  length_lt : value.length < maxValueLen

/-- The bytes of the record in the database. -/
def Record.wire (r : Record) : List UInt8 := r.value ++ 0 :: r.curTime.bytes

/-- The record of decoded data. -/
def Record.ofData (d : Data) (h : 0 ∈ d.value.bytes) : Record :=
  ⟨text d.value.bytes, d.curTime, nul_notMem_text _, length_text_lt h⟩

/-- What the server is for: it keeps a record for each of some keys. -/
abbrev Contents := List UInt8 → Option Record

/-- A request with what `dispose` finds: the time, and what was on the stack. -/
structure Arrival where
  request : Request
  now : CharArray timeLen
  junk : Store

namespace Arrival

/-- The record of a GET or a SET. -/
def decoded (a : Arrival) : Option (Store × ℕ) :=
  storeUnserialize { a.junk with data.curTime := a.now } (tdataData a.request.msg)

/-- The request is decoded inside of the arrays and the buffer. -/
def Inside (a : Arrival) : Prop :=
  command a.request.msg = cmdDataGet ∨ command a.request.msg = cmdDataSet → a.decoded.isSome

/-- The message of an answer: length, command, result and what follows. -/
def answer (a : Arrival) (result : ℕ) (payload : List UInt8) : List UInt8 :=
  lengthBytes (payload.length + 8) ++ lengthBytes (command a.request.msg) ++ lengthBytes result
    ++ payload

/-- What a map answers, and what it becomes: a GET is answered with the record of its key, a
SET replaces that record or fails, and other commands fail. -/
inductive Served (a : Arrival) (m : Contents) : Contents → List UInt8 → Prop
  | found {s : Store} {p : ℕ} {r : Record} (hget : command a.request.msg = cmdDataGet)
      (hdecoded : a.decoded = some (s, p)) (hr : m (text s.key.bytes) = some r) :
      Served a m m (a.answer cmdSuccessful
        (r.wire ++ (text s.dbname.bytes ++ [0]) ++ (text s.key.bytes ++ [0])))
  | missing {s : Store} {p : ℕ} (hget : command a.request.msg = cmdDataGet)
      (hdecoded : a.decoded = some (s, p)) (hnone : m (text s.key.bytes) = none) :
      Served a m m (a.answer cmdFail [])
  | stored {s : Store} {p : ℕ} (hset : command a.request.msg = cmdDataSet)
      (hdecoded : a.decoded = some (s, p)) (hnul : 0 ∈ s.data.value.bytes) :
      Served a m (Function.update m (text s.key.bytes) (some (Record.ofData s.data hnul)))
        (a.answer cmdSuccessful [])
  | refused (hset : command a.request.msg = cmdDataSet) : Served a m m (a.answer cmdFail [])
  | unknown (hget : command a.request.msg ≠ cmdDataGet)
      (hset : command a.request.msg ≠ cmdDataSet) :
      Served a m m (a.answer cmdFail [])

end Arrival

/-- One request after the other. -/
inductive ServedAll : Contents → List Arrival → Contents → List (List UInt8) → Prop
  | nil {m : Contents} : ServedAll m [] m []
  | cons {m m' m'' : Contents} {a : Arrival} {rest : List Arrival} {sent : List UInt8}
      {sents : List (List UInt8)} (h : a.Served m m' sent) (hrest : ServedAll m' rest m'' sents) :
      ServedAll m (a :: rest) m'' (sent :: sents)

section Database

variable {δ : Type} (dbp : Bdb δ)

/-- `apr_bucket_heap_create`, which copies `len` bytes of the buffer. -/
def aprBucketHeapCreate (out : List UInt8 × ℕ) : Option (List UInt8) :=
  if out.2 ≤ out.1.length then some (out.1.take out.2) else none

/-- `dispose` of one request after the other: what is sent for each, and the database. -/
def serve : δ → List Arrival → Option (δ × List (List UInt8))
  | db, [] => some (db, [])
  | db, a :: rest => do
      let (db, out) ← dispose dbp db a.now a.junk a.request.msg
      let sent ← aprBucketHeapCreate out
      let (db, sents) ← serve db rest
      some (db, sent :: sents)

/-- A key that was put is found with its record, and all other keys as before. -/
def Bdb.Lawful : Prop :=
  ∀ db db' key record, dbp.put db key record = some db' →
    ∀ k, dbp.get db' k = if k = key then some record else dbp.get db k

/-- The database has the records of a map, each under its key and a NUL. -/
def Bdb.Holds (db : δ) (m : Contents) : Prop :=
  ∀ key, 0 ∉ key → dbp.get db (key ++ [0]) = (m key).map Record.wire

/-! ### The pieces of an answer -/

/-- A write of the same size replaces the bytes in the middle. -/
theorem poke_append {front middle back bytes : List UInt8} {p : ℕ} (hp : p = front.length)
    (h : middle.length = bytes.length) :
    poke (front ++ (middle ++ back)) p bytes = front ++ (bytes ++ back) := by
  rw [hp, poke, List.take_left, ← List.drop_drop, List.drop_left, ← h, List.drop_left,
    List.append_assoc]

/-- A reply is written over the first three words of the message. -/
theorem reply_words {msg : List UInt8} (cmd result slen : ℕ) (hlen : 12 ≤ msg.length) :
    (reply msg cmd result slen).1
      = lengthBytes (slen + 8) ++ lengthBytes cmd ++ lengthBytes result ++ msg.drop 12 := by
  have hwords : msg.take 4 ++ ((msg.drop 4).take 4 ++ ((msg.drop 8).take 4 ++ msg.drop 12))
      = msg := by
    rw [show msg.drop 12 = (msg.drop 8).drop 4 by rw [List.drop_drop], List.take_append_drop,
      show msg.drop 8 = (msg.drop 4).drop 4 by rw [List.drop_drop], List.take_append_drop,
      List.take_append_drop]
  have ha : (msg.take 4).length = 4 := by rw [List.length_take]; omega
  have hb : ((msg.drop 4).take 4).length = 4 := by
    rw [List.length_take, List.length_drop]
    omega
  have hc : ((msg.drop 8).take 4).length = 4 := by
    rw [List.length_take, List.length_drop]
    omega
  rw [reply]
  conv_lhs => rw [← hwords]
  generalize msg.take 4 = a at *
  generalize (msg.drop 4).take 4 = b at *
  generalize (msg.drop 8).take 4 = c at *
  have hcmd : poke (a ++ (b ++ (c ++ msg.drop 12))) 4 (lengthBytes cmd)
      = a ++ (lengthBytes cmd ++ (c ++ msg.drop 12)) := poke_append ha.symm hb
  have hresult : poke ((a ++ lengthBytes cmd) ++ (c ++ msg.drop 12)) 8 (lengthBytes result)
      = (a ++ lengthBytes cmd) ++ (lengthBytes result ++ msg.drop 12) :=
    poke_append (by rw [List.length_append, ha, length_lengthBytes]) hc
  have hslen : poke ([] ++ (a ++ (lengthBytes cmd ++ (lengthBytes result ++ msg.drop 12)))) 0
        (lengthBytes (slen + 8))
      = lengthBytes (slen + 8) ++ (lengthBytes cmd ++ (lengthBytes result ++ msg.drop 12)) :=
    poke_append rfl ha
  dsimp only
  rw [hcmd, ← List.append_assoc, hresult, List.append_assoc]
  exact hslen.trans (by simp only [List.append_assoc])

/-- What is sent of a reply: the three words, and `slen` bytes behind them. -/
theorem reply_sent {msg : List UInt8} (cmd result : ℕ) {slen : ℕ}
    (hlen : slen + 12 ≤ msg.length) :
    aprBucketHeapCreate (reply msg cmd result slen)
      = some (lengthBytes (slen + 8) ++ lengthBytes cmd ++ lengthBytes result
        ++ (msg.drop 12).take slen) := by
  have hreply := reply_words cmd result slen ((Nat.le_add_left 12 slen).trans hlen)
  have hend : (reply msg cmd result slen).2
      = (lengthBytes (slen + 8) ++ lengthBytes cmd ++ lengthBytes result).length + slen := by
    rw [List.length_append, List.length_append, length_lengthBytes, length_lengthBytes,
      length_lengthBytes]
    show slen + 8 + 4 = _
    omega
  have hroom : (reply msg cmd result slen).2 ≤ (reply msg cmd result slen).1.length := by
    rw [hreply, hend]
    simp only [List.length_append, List.length_drop]
    simp only [length_lengthBytes]
    omega
  rw [aprBucketHeapCreate, if_pos hroom, hreply, hend, List.take_length_add_append]

/-- A record fits behind the three words. -/
theorem wire_fits {s : Store} (h : s.Terminated) : s.wire.length ≤ bufferSize - 12 := by
  have hlen := s.length_wire
  have hvalue := length_text_lt h.value
  have hdbname := length_text_lt h.dbname
  have hkey := length_text_lt h.key
  simp only [bufferSize, maxValueLen, keyLen, timeLen] at *
  omega

/-! ### The calls of the database -/

variable {dbp} {db : δ} {m : Contents} {store : Store}

/-- `set_store` puts the record under the key and its NUL. -/
theorem setStore_eq (dbp : Bdb δ) (db : δ) (hstore : store.Terminated) :
    setStore dbp db store
      = some (dbp.put db (text store.key.bytes ++ [0])
          (Record.ofData store.data hstore.value).wire) := by
  have hfits : store.data.wire.length ≤ bufferSize := by
    have hlen := store.data.length_wire
    have hroom := length_text_lt hstore.value
    simp only [bufferSize, maxValueLen, timeLen] at hlen hroom ⊢
    omega
  unfold setStore
  simp only [strlen_text hstore.key, dataSerialize_eq hstore.value hfits, Option.bind_eq_bind,
    Option.bind_some, List.take_left, take_text_succ hstore.key]
  rfl

/-- The map with the record that was put. -/
theorem Bdb.Holds.put (hlaw : dbp.Lawful) (hdb : dbp.Holds db m) {key : List UInt8} {db' : δ}
    {r : Record} (hput : dbp.put db (key ++ [0]) r.wire = some db') :
    dbp.Holds db' (Function.update m key (some r)) := by
  intro k hk
  rw [hlaw _ _ _ _ hput]
  rcases eq_or_ne k key with rfl | hne
  · rw [if_pos rfl, Function.update_self]
    rfl
  · rw [if_neg fun heq => hne (List.append_cancel_right heq), Function.update_of_ne hne, hdb k hk]

/-- `get_store` finds the record of the key. -/
theorem getStore_eq (hdb : dbp.Holds db m) (hstore : store.Terminated) :
    m (text store.key.bytes) = none ∧ getStore dbp db store = some none
      ∨ ∃ r store', m (text store.key.bytes) = some r
        ∧ getStore dbp db store = some (some store') ∧ store'.Terminated
        ∧ store'.wire
          = r.wire ++ (text store.dbname.bytes ++ [0]) ++ (text store.key.bytes ++ [0]) := by
  have hget := hdb (text store.key.bytes) (nul_notMem_text _)
  unfold getStore
  rw [strlen_text hstore.key, Option.bind_eq_bind, Option.bind_some, take_text_succ hstore.key,
    hget]
  cases hr : m (text store.key.bytes) with
  | none => exact .inl ⟨rfl, rfl⟩
  | some r =>
      have hwire : r.wire.length = r.value.length + 1 + timeLen := by
        rw [Record.wire, List.length_append, List.length_cons, r.curTime.size]
        omega
      have hlong : r.wire.length ≤ bufferSize := by
        have := r.length_lt
        simp only [bufferSize, maxValueLen, timeLen] at *
        omega
      have hbuf : poke (List.replicate bufferSize 0) 0 r.wire
          = r.value ++ 0 :: (r.curTime.bytes ++ List.replicate (bufferSize - r.wire.length) 0) := by
        rw [show List.replicate bufferSize (0 : UInt8) = [] ++ List.replicate bufferSize 0
          from rfl, poke_cleared (by rfl), List.nil_append, Record.wire, List.append_assoc,
          List.cons_append]
      obtain ⟨value, hvalue, htext, hnul⟩ := memcpy_string store.data.value
        (r := r.curTime.bytes ++ List.replicate (bufferSize - r.wire.length) 0)
        r.nul_notMem r.length_lt
      refine .inr ⟨r, ⟨store.dbname, store.key, ⟨value, r.curTime⟩⟩, rfl, ?_,
        ⟨hstore.dbname, hstore.key, hnul⟩, ?_⟩
      · rw [Option.map_some]
        dsimp only
        rw [if_neg (not_lt.mpr hlong), hbuf, dataUnserialize]
        simp only [strlen_append_nul r.nul_notMem, hvalue, drop_string, memcpy_array,
          Option.bind_eq_bind, Option.bind_some]
      · rw [Store.wire_eq, Data.wire, htext]
        rfl

/-! ### One request -/

variable {a : Arrival}

/-- A reply without anything behind the three words. -/
theorem reply_answer (a : Arrival) (result : ℕ) :
    aprBucketHeapCreate (reply a.request.msg (command a.request.msg) result 0)
      = some (a.answer result []) := by
  rw [reply_sent _ _ (by rw [a.request.length_msg]; decide), List.take_zero, Arrival.answer]
  rfl

/-- A GET is answered as by the map. -/
theorem disposeGet_served (hdb : dbp.Holds db m) (hget : command a.request.msg = cmdDataGet)
    {s : Store} {p : ℕ} (hdecoded : a.decoded = some (s, p)) :
    ∃ out sent, disposeGet dbp db { a.junk with data.curTime := a.now } a.request.msg
        = some (db, out) ∧ aprBucketHeapCreate out = some sent ∧ a.Served m m sent := by
  have hterminated := (storeUnserialize_eq_some hdecoded).1
  rw [Arrival.decoded] at hdecoded
  rw [disposeGet, hdecoded, Option.bind_eq_bind, Option.bind_some]
  dsimp only
  rcases getStore_eq hdb hterminated with ⟨hnone, hres⟩ | ⟨r, s', hr, hres, hterminated', hwire⟩
  · rw [hres, Option.bind_eq_bind, Option.bind_some]
    exact ⟨_, _, rfl, reply_answer a cmdFail, .missing hget hdecoded hnone⟩
  · rw [hres, Option.bind_eq_bind, Option.bind_some]
    dsimp only
    have hfits := wire_fits hterminated'
    have hbuf : 12 ≤ bufferSize := by decide
    have hmsg := a.request.length_msg
    rw [storeSerialize_eq hterminated' hfits, Option.bind_eq_bind, Option.bind_some]
    have hpoke : (poke a.request.msg 12 (s'.wire
        ++ List.replicate (bufferSize - 12 - s'.wire.length) 0)).drop 12
        = s'.wire ++ List.replicate (bufferSize - 12 - s'.wire.length) 0 := by
      rw [poke, List.append_assoc, List.drop_left' (by rw [List.length_take]; omega),
        List.drop_eq_nil_of_le, List.append_nil]
      rw [List.length_append, List.length_replicate]
      omega
    have hsent := @reply_sent (poke a.request.msg 12 (s'.wire
        ++ List.replicate (bufferSize - 12 - s'.wire.length) 0)) (command a.request.msg)
      cmdSuccessful s'.wire.length (by
        rw [length_poke, hmsg]
        · omega
        · rw [List.length_append, List.length_replicate]
          omega)
    rw [hpoke, List.take_left] at hsent
    have hanswer : a.answer cmdSuccessful
        (r.wire ++ (text s.dbname.bytes ++ [0]) ++ (text s.key.bytes ++ [0]))
        = lengthBytes (s'.wire.length + 8) ++ lengthBytes (command a.request.msg)
          ++ lengthBytes cmdSuccessful ++ s'.wire := by
      rw [← hwire]
      rfl
    exact ⟨_, _, rfl, hsent.trans (congrArg some hanswer.symm), .found hget hdecoded hr⟩

/-- A SET does to the map what it says, or fails. -/
theorem disposeSet_served (hlaw : dbp.Lawful) (hdb : dbp.Holds db m)
    (hset : command a.request.msg = cmdDataSet) {s : Store} {p : ℕ}
    (hdecoded : a.decoded = some (s, p)) :
    ∃ db' m' out sent, disposeSet dbp db { a.junk with data.curTime := a.now } a.request.msg
        = some (db', out) ∧ aprBucketHeapCreate out = some sent ∧ dbp.Holds db' m'
      ∧ a.Served m m' sent := by
  have hterminated := (storeUnserialize_eq_some hdecoded).1
  rw [Arrival.decoded] at hdecoded
  rw [disposeSet, hdecoded, Option.bind_eq_bind, Option.bind_some]
  dsimp only
  rw [setStore_eq dbp db hterminated, Option.bind_eq_bind, Option.bind_some]
  cases hput : dbp.put db (text s.key.bytes ++ [0])
      (Record.ofData s.data hterminated.value).wire with
  | none =>
      exact ⟨db, m, _, _, rfl, reply_answer a cmdFail, hdb, .refused hset⟩
  | some db' =>
      exact ⟨db', _, _, _, rfl, reply_answer a cmdSuccessful, hdb.put hlaw hput,
        .stored hset hdecoded hterminated.value⟩

/-- **One request.**  `dispose` answers a request that is decoded inside as the map does. -/
theorem dispose_served (hlaw : dbp.Lawful) (hdb : dbp.Holds db m) (hinside : a.Inside) :
    ∃ db' m' out sent, dispose dbp db a.now a.junk a.request.msg = some (db', out)
      ∧ aprBucketHeapCreate out = some sent ∧ dbp.Holds db' m' ∧ a.Served m m' sent := by
  unfold dispose
  dsimp only
  split_ifs with hget hset
  · obtain ⟨⟨s, p⟩, hdecoded⟩ := Option.isSome_iff_exists.mp (hinside (.inl hget))
    obtain ⟨out, sent, hdispose, hsent, hserved⟩ := disposeGet_served hdb hget hdecoded
    exact ⟨db, m, out, sent, hdispose, hsent, hdb, hserved⟩
  · obtain ⟨⟨s, p⟩, hdecoded⟩ := Option.isSome_iff_exists.mp (hinside (.inr hset))
    exact disposeSet_served hlaw hdb hset hdecoded
  · exact ⟨db, m, _, _, rfl, reply_answer a cmdFail, hdb, .unknown hget hset⟩

/-- And only such a request. -/
theorem Arrival.inside_of_dispose (h : (dispose dbp db a.now a.junk a.request.msg).isSome) :
    a.Inside := by
  rintro (hget | hset)
  · unfold dispose at h
    dsimp only at h
    rw [if_pos hget] at h
    exact Option.isSome_of_isSome_bind h
  · have hne : command a.request.msg ≠ cmdDataGet := by
      rw [hset]
      decide
    unfold dispose at h
    dsimp only at h
    rw [if_neg hne, if_pos hset] at h
    exact Option.isSome_of_isSome_bind h

end Database

/-- A database that is a function. -/
def functionBdb : Bdb (List UInt8 → Option (List UInt8)) where
  put db key record := some (Function.update db key (some record))
  get db key := db key

/-- A request with the message of `dbRecord` that is received whole. -/
def dbRequest (cmd : ℕ) : Request where
  old := List.replicate bufferSize 0
  size := List.length_replicate
  deliver := fun _ => 16384
  before := ⟨lengthBytes (lengthBytes cmd ++ dbRecord.wire).length
    ++ ((lengthBytes cmd ++ dbRecord.wire) ++ []), 0⟩
  after := ⟨[], 2⟩
  body := lengthBytes cmd ++ dbRecord.wire
  admitted := by
    have hlen : (lengthBytes cmd ++ dbRecord.wire).length = 4 + dbRecord.wire.length := by
      rw [List.length_append, length_lengthBytes]
    have hwire := dbRecord_length_wire
    rw [process_whole_length ⟨by omega, by rw [hlen, hwire]; decide⟩ (by decide)]
    apply aprSocketRecv_whole
    · exact List.append_ne_nil_of_left_ne_nil (List.cons_ne_nil _ _) _
    · rw [hlen, hwire]
      decide

/-- A request with the message of `dbRecord` stays inside of its arrays. -/
theorem dbRequest_inside (cmd : ℕ) (now : CharArray timeLen) :
    (Arrival.mk (dbRequest cmd) now clearedRecord).Inside := by
  intro _
  refine (storeUnserialize_isSome_iff _ _).mpr ⟨dbRecord, dbRecord_terminated, ?_⟩
  have hmsg := (dbRequest cmd).drop_msg
  rw [tdataData, ← List.drop_drop, hmsg,
    show (dbRequest cmd).body = lengthBytes cmd ++ dbRecord.wire from rfl, List.append_assoc,
    List.drop_left' (length_lengthBytes _)]
  exact List.prefix_append _ _

end Zevent.Apps
