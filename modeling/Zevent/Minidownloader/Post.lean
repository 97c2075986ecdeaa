/-
# A POST request (`ZNet_Http_Post_Add_Request_Header`, `Create_Post_Request` of `http.c`)

A message is made with `ZNet_Generate_Http_Post`, headers are added to it, and `Create_Post_Request`
writes its text.  The size of each string is summed up before it is allocated and written.

The blocks of memory in a message are lists of bytes.  `ZNet_Http_Post_Add_Request_Header` allocates
blocks for the token and the value and copies nothing into them, so they hold whatever the memory
held.  The size of the headers is an `int`.

* `createHeaderString_stored`: the text of headers that were copied.
* `postRequest_carries_iff`: when a request carries its headers and its body.
-/
import Mathlib.Tactic
import Zevent.Lib.CString
import Zevent.Minidownloader.Url

namespace Zevent.Minidownloader

open CString Numerals

/-- `BAD_PARAMS`. -/
def badParams : ℤ := -498

/-- `BAD_MALLOC`. -/
def badMalloc : ℤ := -499

/-- `HTTP_PORT_OUT_OF_RANGE`. -/
def httpPortOutOfRange : ℤ := -897

/-! ## Messages -/

/-- A block from `malloc`, with what the memory holds. -/
def malloc (memory : ℕ → UInt8) (size : ℕ) : List UInt8 := (List.range size).map memory

/-- A block of `strlen + 1` bytes, with a string that `strcpy` has copied into it. -/
def copied (s : Str) : List UInt8 := s.1 ++ [0]

/-- `RequestHeader` and `EntityHeader`: the blocks that they point to. -/
structure Header where
  token : List UInt8
  value : List UInt8
deriving DecidableEq

/-- `HTTP_PostMessage`. -/
structure HttpPostMessage where
  resource : List UInt8
  host : List UInt8
  port : ℤ
  body : List UInt8
  rhHead : List Header
  ehHead : List Header
deriving DecidableEq

/-- `ZNet_Generate_Http_Post`. -/
def generateHttpPost (host resource : Str) (port : ℤ) (body : Str) :
    Except ℤ HttpPostMessage :=
  if port < 0 then .error badParams
  else .ok ⟨copied resource, copied host, port, copied body, [], []⟩

/-- `ZNet_Http_Post_Add_Request_Header`; `memory` is what its two blocks hold. -/
def addRequestHeader (memory : Bool → ℕ → UInt8) (pm : HttpPostMessage) (token value : Str) :
    HttpPostMessage :=
  { pm with
    rhHead := ⟨malloc (memory false) (token.1.length + 1),
      malloc (memory true) (value.1.length + 1)⟩ :: pm.rhHead }

/-- `ZNet_Http_Post_Add_Entity_Header`. -/
def addEntityHeader (pm : HttpPostMessage) (token value : Str) : HttpPostMessage :=
  { pm with ehHead := ⟨copied token, copied value⟩ :: pm.ehHead }

/-- The two lists of headers. -/
inductive HeaderKind
  | request
  | entity
deriving DecidableEq

/-- A call that adds a header. -/
structure AddHeader where
  kind : HeaderKind
  token : Str
  value : Str
deriving DecidableEq

/-- One call. -/
def addHeader (memory : Bool → ℕ → UInt8) (pm : HttpPostMessage) (a : AddHeader) :
    HttpPostMessage :=
  match a.kind with
  | .request => addRequestHeader memory pm a.token a.value
  | .entity => addEntityHeader pm a.token a.value

/-- One call after the other; each finds memory of its own. -/
def addHeaders (memory : ℕ → Bool → ℕ → UInt8) (pm : HttpPostMessage) :
    List AddHeader → HttpPostMessage
  | [] => pm
  | a :: adds => addHeaders (fun k => memory (k + 1)) (addHeader (memory 0) pm a) adds

/-! ## The text of a request -/

/-- How a function that makes a string ends: with the string in a block of its own, with an error,
or with an access outside of a block. -/
inductive Created
  | text (s : List UInt8)
  | refused (ret : ℤ)
  | outside
deriving DecidableEq

/-- What is done with the string. -/
def Created.bind : Created → (List UInt8 → Created) → Created
  | .text s, f => f s
  | .refused ret, _ => .refused ret
  | .outside, _ => .outside

/-- `sprintf` into a block of `size` bytes. -/
def sprintf (size : ℕ) (s : List UInt8) : Created :=
  if s.length + 1 ≤ size then .text s else .outside

/-- `Create_Http_Header_Host_String`. -/
def createHttpHeaderHostString (host : List UInt8) (port : ℤ) : Created :=
  if port > maxPortSize then .refused httpPortOutOfRange
  else
    match strlen host with
    | none => .outside
    | some n => sprintf (1 + n + maxPortStringLen + 1) (text host ++ 58 :: decimal port)

/-- An `int` of 32 bits. -/
def toInt (z : ℤ) : ℤ := z.bmod (2 ^ 32)

/-- The loop that sums up the sizes. -/
def headerFieldsSize : List Header → ℤ → Option ℤ
  | [], size => some size
  | h :: hs, size =>
      match strlen h.token, strlen h.value with
      | some t, some v => headerFieldsSize hs (toInt (size + (4 + toInt t + toInt v + 1)))
      | _, _ => none

/-- `%s: %s\r\n`. -/
def headerField (token value : List UInt8) : List UInt8 :=
  token ++ ascii ": " ++ value ++ ascii "\r\n"

/-- What `Create_Request_Header_String` and `Create_Entity_Header_String` do with their list.  A
size below 0 is one that `malloc` does not have. -/
def createHeaderString (hs : List Header) : Created :=
  match headerFieldsSize hs 0 with
  | none => .outside
  | some size =>
      if size = 0 then .text []
      else if size < 0 then .refused badMalloc
      else
        match fill size.toNat [] (hs.map fun h => headerField (text h.token) (text h.value)) with
        | none => .outside
        | some s => .text s

/-- `Create_Request_Header_String`. -/
def createRequestHeaderString (pm : HttpPostMessage) : Created := createHeaderString pm.rhHead

/-- `Create_Entity_Header_String`. -/
def createEntityHeaderString (pm : HttpPostMessage) : Created := createHeaderString pm.ehHead

/-- `POST /%s HTTP/1.1\r\nHost: %s\r\n%s%s\r\n%s`. -/
def postText (resource host requestHeader entityHeader body : List UInt8) : List UInt8 :=
  ascii "POST /" ++ resource ++ ascii " HTTP/1.1\r\nHost: " ++ host ++ ascii "\r\n"
    ++ (requestHeader ++ entityHeader) ++ ascii "\r\n" ++ body

/-- `Create_Post_Request`. -/
def createPostRequest (pm : HttpPostMessage) : Created :=
  (createHttpHeaderHostString pm.host pm.port).bind fun postRequestHost =>
    (createRequestHeaderString pm).bind fun requestHeader =>
      (createEntityHeaderString pm).bind fun entityHeader =>
        match strlen pm.resource, strlen pm.body with
        | some r, some b =>
            sprintf (27 + r + postRequestHost.length + requestHeader.length
              + entityHeader.length + b + 1)
              (postText (text pm.resource) postRequestHost requestHeader entityHeader
                (text pm.body))
        | _, _ => .outside

/-! ## What a request has to carry -/

/-- The field of a header in a request. -/
def AddHeader.field (a : AddHeader) : List UInt8 := headerField a.token.1 a.value.1

/-- The bytes that are counted for the headers, one more for each than its field has. -/
def fieldsSize (adds : List AddHeader) : ℕ := (adds.map fun a => a.field.length + 1).sum

/-- The text has a field for every header, in some order, and the body behind them. -/
def Carries (host resource : Str) (port : ℤ) (body : Str) (adds : List AddHeader)
    (s : List UInt8) : Prop :=
  ∃ fields : List (List UInt8), fields.Perm (adds.map AddHeader.field) ∧
    s = postText resource.1 (host.1 ++ 58 :: decimal port) [] fields.flatten body.1

/-! ## Blocks and strings -/

theorem strlen_copied (s : Str) : strlen (copied s) = some s.1.length := strlen_append_nul s.2

theorem text_copied (s : Str) : text (copied s) = s.1 := text_append_nul s.2

/-- A block that was allocated and not written may hold no NUL. -/
theorem strlen_malloc_ones (size : ℕ) : strlen (malloc (fun _ => 1) size) = none := by
  rw [strlen, if_neg]
  intro h
  obtain ⟨i, -, hi⟩ := List.mem_map.mp h
  exact absurd hi (by decide)

/-- A header that was copied. -/
def AddHeader.stored (a : AddHeader) : Header := ⟨copied a.token, copied a.value⟩

theorem length_headerField (token value : List UInt8) :
    (headerField token value).length = 4 + token.length + value.length := by
  have hcolon : (ascii ": ").length = 2 := rfl
  have hend : (ascii "\r\n").length = 2 := rfl
  rw [headerField, List.length_append, List.length_append, List.length_append, hcolon, hend]
  omega

/-! ## The headers of a message -/

section Headers

variable {pm : HttpPostMessage} {adds : List AddHeader}

/-- The strings of a message are not changed. -/
theorem addHeaders_frame (memory : ℕ → Bool → ℕ → UInt8) (pm : HttpPostMessage)
    (adds : List AddHeader) :
    (addHeaders memory pm adds).resource = pm.resource ∧
      (addHeaders memory pm adds).host = pm.host ∧
      (addHeaders memory pm adds).port = pm.port ∧
      (addHeaders memory pm adds).body = pm.body := by
  induction adds generalizing memory pm with
  | nil => exact ⟨rfl, rfl, rfl, rfl⟩
  | cons a adds ih =>
      obtain ⟨hresource, hhost, hport, hbody⟩ :=
        ih (fun k => memory (k + 1)) (addHeader (memory 0) pm a)
      rw [addHeaders, hresource, hhost, hport, hbody, addHeader]
      cases a.kind with
      | request => exact ⟨rfl, rfl, rfl, rfl⟩
      | entity => exact ⟨rfl, rfl, rfl, rfl⟩

/-- Entity headers are copied, whatever the memory holds. -/
theorem addHeaders_entity (memory : ℕ → Bool → ℕ → UInt8)
    (hentity : ∀ a ∈ adds, a.kind = .entity) :
    (addHeaders memory pm adds).rhHead = pm.rhHead ∧
      (addHeaders memory pm adds).ehHead
        = (adds.reverse.map AddHeader.stored) ++ pm.ehHead := by
  induction adds generalizing memory pm with
  | nil => exact ⟨rfl, rfl⟩
  | cons a adds ih =>
      obtain ⟨hrh, heh⟩ := @ih (addHeader (memory 0) pm a) (fun k => memory (k + 1))
        (fun b hb => hentity b (List.mem_cons_of_mem a hb))
      have hadd : addHeader (memory 0) pm a = addEntityHeader pm a.token a.value := by
        rw [addHeader, hentity a List.mem_cons_self]
      rw [addHeaders, hrh, heh, hadd, List.reverse_cons, List.map_append, List.append_assoc]
      exact ⟨rfl, rfl⟩

/-- A request header stays in its list. -/
theorem mem_rhHead_addHeaders (memory : ℕ → Bool → ℕ → UInt8) {h : Header}
    (hh : h ∈ pm.rhHead) : h ∈ (addHeaders memory pm adds).rhHead := by
  induction adds generalizing memory pm with
  | nil => exact hh
  | cons a adds ih =>
      refine ih (fun k => memory (k + 1)) ?_
      unfold addHeader
      split
      · exact List.mem_cons_of_mem _ hh
      · exact hh

/-- Memory without a NUL is left in the blocks of a request header. -/
theorem exists_unwritten (hrequest : ∃ a ∈ adds, a.kind = .request) :
    ∃ h ∈ (addHeaders (fun _ _ _ => 1) pm adds).rhHead, strlen h.token = none := by
  induction adds generalizing pm with
  | nil =>
      obtain ⟨a, ha, -⟩ := hrequest
      exact absurd ha List.not_mem_nil
  | cons b adds ih =>
      obtain ⟨a, ha, hkind⟩ := hrequest
      rcases List.mem_cons.mp ha with rfl | ha
      · have hadd : addHeader (fun _ _ => 1) pm a
            = addRequestHeader (fun _ _ => 1) pm a.token a.value := by
          unfold addHeader
          rw [hkind]
        refine ⟨⟨malloc (fun _ => 1) (a.token.1.length + 1),
          malloc (fun _ => 1) (a.value.1.length + 1)⟩, ?_, strlen_malloc_ones _⟩
        rw [addHeaders, hadd]
        exact mem_rhHead_addHeaders _ List.mem_cons_self
      · exact ih ⟨a, ha, hkind⟩

end Headers

/-! ## The text of the headers -/

theorem headerFieldsSize_unwritten {hs : List Header} (h : ∃ h ∈ hs, strlen h.token = none)
    (size : ℤ) : headerFieldsSize hs size = none := by
  induction hs generalizing size with
  | nil =>
      obtain ⟨h, hh, -⟩ := h
      exact absurd hh List.not_mem_nil
  | cons d hs ih =>
      obtain ⟨h, hh, hnone⟩ := h
      rw [headerFieldsSize]
      rcases List.mem_cons.mp hh with rfl | hh
      · rw [hnone]
      · split
        · exact ih ⟨h, hh, hnone⟩ _
        · rfl

/-- The sum of the sizes, as an `int`. -/
theorem headerFieldsSize_stored (adds : List AddHeader) (size : ℕ) :
    headerFieldsSize (adds.map AddHeader.stored) (toInt size)
      = some (toInt ((size + fieldsSize adds : ℕ) : ℤ)) := by
  induction adds generalizing size with
  | nil => rfl
  | cons a adds ih =>
      have hstep : toInt (toInt size + (4 + toInt (a.token.1.length : ℤ)
          + toInt (a.value.1.length : ℤ) + 1)) = toInt ((size + (a.field.length + 1) : ℕ) : ℤ) := by
        rw [AddHeader.field, length_headerField]
        unfold toInt
        rw [Int.bmod_add_bmod, show (size : ℤ) + (4 + (a.token.1.length : ℤ).bmod (2 ^ 32)
            + (a.value.1.length : ℤ).bmod (2 ^ 32) + 1)
          = (a.token.1.length : ℤ).bmod (2 ^ 32)
            + (size + 5 + (a.value.1.length : ℤ).bmod (2 ^ 32)) by ring,
          Int.bmod_add_bmod, ← Int.add_assoc, Int.add_bmod_bmod]
        congr 1
        push_cast
        ring
      rw [List.map_cons, headerFieldsSize, AddHeader.stored, strlen_copied, strlen_copied]
      dsimp only
      rw [hstep, ih, Nat.add_assoc]
      rfl

/-- The fields of headers that were copied. -/
theorem fields_stored (adds : List AddHeader) :
    (adds.map AddHeader.stored).map (fun h => headerField (text h.token) (text h.value))
      = adds.map AddHeader.field := by
  rw [List.map_map]
  refine List.map_congr_left fun a _ => ?_
  show headerField (text (copied a.token)) (text (copied a.value)) = a.field
  rw [text_copied, text_copied]
  rfl

/-- One byte for each header is allocated that its field does not take. -/
theorem fieldsSize_eq (adds : List AddHeader) :
    fieldsSize adds = (adds.map AddHeader.field).flatten.length + adds.length ∧
      4 * adds.length ≤ (adds.map AddHeader.field).flatten.length := by
  induction adds with
  | nil => exact ⟨rfl, le_rfl⟩
  | cons a adds ih =>
      obtain ⟨hsize, hlen⟩ := ih
      have ha : 4 ≤ a.field.length := by
        rw [AddHeader.field, length_headerField]
        omega
      rw [fieldsSize, List.map_cons, List.sum_cons, ← fieldsSize, hsize, List.map_cons,
        List.flatten_cons, List.length_append, List.length_cons]
      omega

theorem toInt_of_lt {n : ℕ} (h : n < 2 ^ 31) : toInt n = n := by
  rw [toInt, Int.bmod_def]
  split_ifs <;> omega

theorem toInt_lt (z : ℤ) : toInt z < 2 ^ 31 ∧ ∃ k : ℤ, toInt z = z + k * 2 ^ 32 := by
  rw [toInt, Int.bmod_def]
  split_ifs
  · exact ⟨by omega, -(z / 2 ^ 32), by omega⟩
  · exact ⟨by omega, -(z / 2 ^ 32) - 1, by omega⟩

/-- The whole sum. -/
theorem headerFieldsSize_all (adds : List AddHeader) :
    headerFieldsSize (adds.map AddHeader.stored) 0 = some (toInt (fieldsSize adds)) := by
  have hsum := headerFieldsSize_stored adds 0
  rw [Nat.zero_add] at hsum
  exact hsum

/-- **Headers that were copied** are written as they are, if their size is an `int`. -/
theorem createHeaderString_stored {adds : List AddHeader} (hsize : fieldsSize adds < 2 ^ 31) :
    createHeaderString (adds.map AddHeader.stored)
      = .text (adds.map AddHeader.field).flatten := by
  obtain ⟨heq, hlen⟩ := fieldsSize_eq adds
  unfold createHeaderString
  rw [headerFieldsSize_all, toInt_of_lt hsize]
  dsimp only
  cases adds with
  | nil => rfl
  | cons a adds =>
      rw [List.length_cons] at heq
      rw [if_neg (by omega), if_neg (by omega), fields_stored, Int.toNat_natCast,
        fill_eq (by rw [List.length_nil]; omega), List.length_nil, if_pos (by omega),
        List.nil_append]

/-- Otherwise no string with all of them is written. -/
theorem fieldsSize_lt_of_created {adds : List AddHeader} {s : List UInt8}
    (h : createHeaderString (adds.map AddHeader.stored) = .text s)
    (hlen : s.length = (adds.map AddHeader.field).flatten.length) : fieldsSize adds < 2 ^ 31 := by
  obtain ⟨heq, hfour⟩ := fieldsSize_eq adds
  obtain ⟨hlt, k, hk⟩ := toInt_lt (fieldsSize adds)
  unfold createHeaderString at h
  rw [headerFieldsSize_all] at h
  dsimp only at h
  split_ifs at h with hzero hneg
  · cases h
    rw [List.length_nil] at hlen
    omega
  · rw [fields_stored, fill_eq (by rw [List.length_nil]; omega), List.length_nil] at h
    split at h
    · cases h
    · rename_i hfill
      split_ifs at hfill with hfits
      omega

/-! ## The whole request -/

section Request

variable {host resource body : Str} {port : ℤ} {pm : HttpPostMessage} {adds : List AddHeader}

theorem createHttpHeaderHostString_copied (hpos : 0 ≤ port) (hport : port ≤ maxPortSize) :
    createHttpHeaderHostString (copied host) port = .text (host.1 ++ 58 :: decimal port) := by
  obtain ⟨n, rfl⟩ := Int.eq_ofNat_of_zero_le hpos
  rw [maxPortSize] at hport
  have hdigits := @length_natDecimal_le n 5 (by omega) (by norm_num)
  unfold createHttpHeaderHostString
  rw [if_neg (by rw [maxPortSize]; omega), strlen_copied, text_copied]
  dsimp only
  rw [sprintf, if_pos]
  rw [List.length_append, List.length_cons, decimal_natCast, maxPortStringLen]
  omega

theorem length_postText (resource host requestHeader entityHeader body : List UInt8) :
    (postText resource host requestHeader entityHeader body).length
      = 27 + resource.length + host.length + requestHeader.length + entityHeader.length
        + body.length := by
  have hpost : (ascii "POST /").length = 6 := rfl
  have hline : (ascii " HTTP/1.1\r\nHost: ").length = 17 := rfl
  have hend : (ascii "\r\n").length = 2 := rfl
  simp only [postText, List.length_append, hpost, hline, hend]
  omega

/-- The fields are written between the name of the host and the body. -/
theorem createPostRequest_copied (hpos : 0 ≤ port) (hport : port ≤ maxPortSize)
    (hresource : pm.resource = copied resource) (hhost : pm.host = copied host)
    (hpmport : pm.port = port) (hbody : pm.body = copied body) :
    createPostRequest pm
      = (createRequestHeaderString pm).bind fun requestHeader =>
          (createEntityHeaderString pm).bind fun entityHeader =>
            .text (postText resource.1 (host.1 ++ 58 :: decimal port) requestHeader entityHeader
              body.1) := by
  unfold createPostRequest
  rw [hhost, hpmport, createHttpHeaderHostString_copied hpos hport, hresource, hbody,
    strlen_copied, strlen_copied, text_copied, text_copied]
  show (createRequestHeaderString pm).bind _ = _
  congr 1
  funext requestHeader
  congr 1
  funext entityHeader
  dsimp only
  rw [sprintf, if_pos (by rw [length_postText])]

/-- The headers of a message that was generated are those that were added. -/
theorem createPostRequest_generated (hpm : generateHttpPost host resource port body = .ok pm)
    (hport : port ≤ maxPortSize) (memory : ℕ → Bool → ℕ → UInt8) (adds : List AddHeader) :
    createPostRequest (addHeaders memory pm adds)
      = (createRequestHeaderString (addHeaders memory pm adds)).bind fun requestHeader =>
          (createEntityHeaderString (addHeaders memory pm adds)).bind fun entityHeader =>
            .text (postText resource.1 (host.1 ++ 58 :: decimal port) requestHeader entityHeader
              body.1) := by
  obtain ⟨hresource, hhost, hpmport, hbody⟩ := addHeaders_frame memory pm adds
  unfold generateHttpPost at hpm
  split_ifs at hpm with hneg
  cases hpm
  exact createPostRequest_copied (not_lt.mp hneg) hport hresource hhost hpmport hbody

/-- With entity headers alone. -/
theorem createPostRequest_entity (hpm : generateHttpPost host resource port body = .ok pm)
    (hport : port ≤ maxPortSize) (hentity : ∀ a ∈ adds, a.kind = .entity)
    (memory : ℕ → Bool → ℕ → UInt8) :
    createPostRequest (addHeaders memory pm adds)
      = (createHeaderString (adds.reverse.map AddHeader.stored)).bind fun entityHeader =>
          .text (postText resource.1 (host.1 ++ 58 :: decimal port) [] entityHeader body.1) := by
  obtain ⟨hrh, heh⟩ := @addHeaders_entity pm adds memory hentity
  rw [createPostRequest_generated hpm hport, createRequestHeaderString, createEntityHeaderString,
    hrh, heh]
  unfold generateHttpPost at hpm
  split_ifs at hpm
  cases hpm
  rw [List.append_nil]
  rfl

/-- With a request header, the text of uninitialised memory is looked for. -/
theorem createPostRequest_request (hpm : generateHttpPost host resource port body = .ok pm)
    (hport : port ≤ maxPortSize) (hrequest : ∃ a ∈ adds, a.kind = .request) :
    createPostRequest (addHeaders (fun _ _ _ => 1) pm adds) = .outside := by
  rw [createPostRequest_generated hpm hport, createRequestHeaderString, createHeaderString,
    headerFieldsSize_unwritten (exists_unwritten hrequest)]
  rfl

theorem fieldsSize_reverse (adds : List AddHeader) : fieldsSize adds.reverse = fieldsSize adds := by
  rw [fieldsSize, List.map_reverse, List.sum_reverse, fieldsSize]

theorem createHeaderString_refused {hs : List Header} {ret : ℤ}
    (h : createHeaderString hs = .refused ret) : ret = badMalloc := by
  unfold createHeaderString at h
  split at h
  · cases h
  · split_ifs at h
    · cases h
      rfl
    · split at h
      · cases h
      · cases h

/-- What a request has to be, whatever the memory held: it is refused because of its port, or its
text carries the headers and the body. -/
def PostCarries (host resource : Str) (port : ℤ) (body : Str) (pm : HttpPostMessage)
    (adds : List AddHeader) : Prop :=
  ∀ memory, createPostRequest (addHeaders memory pm adds) = .refused httpPortOutOfRange ∨
    ∃ s, createPostRequest (addHeaders memory pm adds) = .text s ∧
      Carries host resource port body adds s

/-- Entity headers alone are carried if their size is an `int`. -/
theorem postCarries_entity_iff (hpm : generateHttpPost host resource port body = .ok pm)
    (hport : port ≤ maxPortSize) (hentity : ∀ a ∈ adds, a.kind = .entity) :
    PostCarries host resource port body pm adds ↔ fieldsSize adds < 2 ^ 31 := by
  rw [← fieldsSize_reverse]
  constructor
  · intro h
    have hrun := h fun _ _ _ => 0
    rw [createPostRequest_entity hpm hport hentity] at hrun
    cases hstring : createHeaderString (adds.reverse.map AddHeader.stored) with
    | outside =>
        rw [hstring] at hrun
        rcases hrun with hrefused | ⟨s, htext, -⟩
        · cases hrefused
        · cases htext
    | refused ret =>
        rw [hstring, createHeaderString_refused hstring] at hrun
        rcases hrun with hrefused | ⟨s, htext, -⟩
        · cases hrefused
        · cases htext
    | text entityHeader =>
        rw [hstring] at hrun
        rcases hrun with hrefused | ⟨s, htext, fields, hperm, hs⟩
        · cases hrefused
        · cases htext
          -- the length of the text is that of all the fields
          have hlen := congrArg List.length hs
          rw [length_postText, length_postText] at hlen
          refine fieldsSize_lt_of_created hstring ?_
          rw [List.map_reverse, (List.reverse_perm _).flatten.length_eq,
            ← hperm.flatten.length_eq]
          omega
  · intro hsize memory
    refine Or.inr ⟨_, ?_, (adds.reverse).map AddHeader.field, (List.reverse_perm _).map _, rfl⟩
    rw [createPostRequest_entity hpm hport hentity, createHeaderString_stored hsize]
    rfl

/-- **When a request carries its headers and its body.** -/
theorem postRequest_carries_iff
    (hpm : generateHttpPost host resource port body = .ok pm) (adds : List AddHeader) :
    PostCarries host resource port body pm adds ↔
      port > maxPortSize ∨ (∀ a ∈ adds, a.kind = .entity) ∧ fieldsSize adds < 2 ^ 31 := by
  by_cases hport : port > maxPortSize
  · refine ⟨fun _ => Or.inl hport, fun _ memory => Or.inl ?_⟩
    have hpmport : pm.port = port := by
      unfold generateHttpPost at hpm
      split_ifs at hpm
      cases hpm
      rfl
    rw [createPostRequest, (addHeaders_frame memory pm adds).2.2.1, hpmport,
      createHttpHeaderHostString, if_pos hport]
    rfl
  have hrange := not_lt.mp hport
  by_cases hentity : ∀ a ∈ adds, a.kind = .entity
  · rw [postCarries_entity_iff hpm hrange hentity]
    exact ⟨fun h => Or.inr ⟨hentity, h⟩, fun h => (h.resolve_left hport).2⟩
  · refine ⟨fun h => ?_, fun h => absurd (h.resolve_left hport).1 hentity⟩
    have hrequest : ∃ a ∈ adds, a.kind = .request := by
      push Not at hentity
      obtain ⟨a, ha, hkind⟩ := hentity
      refine ⟨a, ha, ?_⟩
      cases hk : a.kind with
      | request => rfl
      | entity => exact absurd hk hkind
    have hrun := h fun _ _ _ => 1
    rw [createPostRequest_request hpm hrange hrequest] at hrun
    rcases hrun with hrefused | ⟨s, htext, -⟩
    · cases hrefused
    · cases htext

end Request

/-- A message for `up`, and a header for it. -/
def upMessage : HttpPostMessage :=
  ⟨copied ⟨ascii "up", by decide⟩, copied ⟨ascii "host", by decide⟩, 80,
    copied ⟨ascii "body", by decide⟩, [], []⟩

def upHeader (kind : HeaderKind) : AddHeader :=
  ⟨kind, ⟨ascii "a", by decide⟩, ⟨ascii "b", by decide⟩⟩

/-- Two entity headers. -/
theorem postRequest_carries_two :
    PostCarries ⟨ascii "host", by decide⟩ ⟨ascii "up", by decide⟩ 80 ⟨ascii "body", by decide⟩
      upMessage [upHeader .entity, upHeader .entity] :=
  (postRequest_carries_iff rfl _).mpr (Or.inr (by decide))

/-- One request header: its blocks are not written. -/
theorem postRequest_unwritten :
    generateHttpPost ⟨ascii "host", by decide⟩ ⟨ascii "up", by decide⟩ 80
        ⟨ascii "body", by decide⟩ = .ok upMessage ∧
      createPostRequest (addHeaders (fun _ _ _ => 1) upMessage [upHeader .request]) = .outside ∧
      ¬ PostCarries ⟨ascii "host", by decide⟩ ⟨ascii "up", by decide⟩ 80
        ⟨ascii "body", by decide⟩ upMessage [upHeader .request] := by
  have hrun : createPostRequest (addHeaders (fun _ _ _ => 1) upMessage [upHeader .request])
      = .outside := by decide
  refine ⟨rfl, hrun, fun h => ?_⟩
  rcases h fun _ _ _ => 1 with hrefused | ⟨s, htext, -⟩
  · rw [hrun] at hrefused
    cases hrefused
  · rw [hrun] at htext
    cases htext

end Zevent.Minidownloader
