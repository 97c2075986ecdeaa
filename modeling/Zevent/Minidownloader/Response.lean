/-
# The length of a response (`Get_Http_Content_Length`, `Get_Http_Content` of `http.c`)

The header of a response is searched for `CONTENT-LENGTH:` in upper case, and the number behind it
is read from the header itself.  A number that is too large is lowered to `MAX_HTTP_BODY_LEN`; one
below 0 is left.  `Get_Http_Content` allocates one byte more, receives the content, and ends it
with a NUL.

* `contentLength_usable_iff`: when the length is in range, and the content with its NUL fits into
  what is allocated for it.
-/
import Mathlib.Tactic
import Zevent.Lib.CString
import Zevent.Lib.Scanf
import Zevent.Minidownloader.Download

namespace Zevent.Minidownloader

open CString

/-- `MAX_HTTP_BODY_LEN`. -/
def maxHttpBodyLen : ℤ := 100 * 1024 * 1024

/-- `toupper`. -/
def toUpper (c : UInt8) : UInt8 := if 97 ≤ c ∧ c ≤ 122 then c - 32 else c

/-- The number that the header gives behind the first `CONTENT-LENGTH:`, in any case. -/
def namedLength (httpHeader : List UInt8) : Option ℤ :=
  match strstr (httpHeader.map toUpper) (ascii "CONTENT-LENGTH:") with
  | none => none
  | some i => Scanf.int (httpHeader.drop (i + (ascii "CONTENT-LENGTH:").length))

/-- `Get_Http_Content_Length`; `store` is what `%d` leaves in an `int` for a number. -/
def getHttpContentLength (store : ℤ → ℤ) (httpHeader : List UInt8) : ℤ :=
  match namedLength httpHeader with
  | none => maxHttpBodyLen
  | some z => if store z > maxHttpBodyLen then maxHttpBodyLen else store z

/-- How `Get_Http_Content` ends: without a block, with an error of the receive, with bytes that are
received outside of the block, or with a NUL at an index of the block. -/
inductive ContentEnd
  | badMalloc
  | recvFailed
  | outside
  | terminated (index : ℕ)
deriving DecidableEq

/-- A receive with a length of -1 into a block of no bytes: `recv` may fill all memory. -/
def recvUnbounded : List RecvEvent → ContentEnd
  | [] => .terminated 0
  | .timeout :: _ => .terminated 0
  | .error :: _ => .recvFailed
  | .data _ _ :: _ => .outside

/-- `Get_Http_Content`: the size that it asks `malloc` for, and how it ends.  There is no block of
a size below 0. -/
def getHttpContent (contentLength : ℤ) (events : List RecvEvent) : ℤ × ContentEnd :=
  (contentLength + 1,
    if contentLength + 1 < 0 then .badMalloc
    else if contentLength < 0 then recvUnbounded events
    else
      match (znetRecv contentLength.toNat events []).1 with
      | none => .recvFailed
      | some content => .terminated content.length)

/-- At least one byte is allocated, and nothing is written outside of it. -/
def Usable (content : ℤ × ContentEnd) : Prop :=
  1 ≤ content.1 ∧ content.2 ≠ .outside ∧ ∀ index, content.2 = .terminated index → index < content.1

theorem getHttpContentLength_le (store : ℤ → ℤ) (httpHeader : List UInt8) :
    getHttpContentLength store httpHeader ≤ maxHttpBodyLen := by
  unfold getHttpContentLength
  split
  · exact le_rfl
  · split_ifs with h
    · exact le_rfl
    · exact not_lt.mp h

/-- The length is negative only if the header says so. -/
theorem getHttpContentLength_neg_iff {store : ℤ → ℤ} {httpHeader : List UInt8} :
    getHttpContentLength store httpHeader < 0
      ↔ ∃ z, namedLength httpHeader = some z ∧ store z < 0 := by
  unfold getHttpContentLength
  cases namedLength httpHeader with
  | none => simp [maxHttpBodyLen]
  | some z =>
      have hmax : (0 : ℤ) < maxHttpBodyLen := by decide
      dsimp only
      constructor
      · intro h
        split_ifs at h with hlarge
        · omega
        · exact ⟨z, rfl, h⟩
      · rintro ⟨_, ⟨⟩, h⟩
        rw [if_neg (by omega)]
        exact h

/-- A length that is not negative is usable, whatever is received. -/
theorem usable_of_nonneg {contentLength : ℤ} (h : 0 ≤ contentLength) (events : List RecvEvent) :
    Usable (getHttpContent contentLength events) := by
  have hrun : (getHttpContent contentLength events).2
      = match (znetRecv contentLength.toNat events []).1 with
        | none => .recvFailed
        | some content => .terminated content.length := by
    rw [getHttpContent, if_neg (by omega), if_neg (by omega)]
  refine ⟨?_, ?_, ?_⟩
  · show 1 ≤ contentLength + 1
    omega
  · rw [hrun]
    split
    · exact ContentEnd.noConfusion
    · exact ContentEnd.noConfusion
  · intro index hindex
    show (index : ℤ) < contentLength + 1
    rw [hrun] at hindex
    rcases znetRecv_spec contentLength.toNat events [] with
      ⟨got, rest, hgot, -, hle, -⟩ | ⟨⟨rest, hfail⟩, -⟩
    · rw [hgot] at hindex
      cases hindex
      rw [List.nil_append]
      omega
    · rw [hfail] at hindex
      cases hindex

/-- **When the length of a response is usable.** -/
theorem contentLength_usable_iff (store : ℤ → ℤ) (httpHeader : List UInt8) :
    (0 ≤ getHttpContentLength store httpHeader ∧
      getHttpContentLength store httpHeader ≤ maxHttpBodyLen ∧
      ∀ events, Usable (getHttpContent (getHttpContentLength store httpHeader) events))
      ↔ ¬ ∃ z, namedLength httpHeader = some z ∧ store z < 0 := by
  rw [← getHttpContentLength_neg_iff]
  constructor
  · rintro ⟨hnonneg, -⟩
    exact not_lt.mpr hnonneg
  · intro h
    have hnonneg := not_lt.mp h
    exact ⟨hnonneg, getHttpContentLength_le store httpHeader, usable_of_nonneg hnonneg⟩

/-- `Content-Length: -1`, and a receive that times out: the NUL is written to a block of no
bytes. -/
theorem contentLength_negative :
    getHttpContentLength (fun z => z.bmod (2 ^ 32)) (ascii "Content-Length: -1\r\n\r\n") = -1 ∧
      getHttpContent (-1) [.timeout] = (0, .terminated 0) ∧
      ¬ Usable (getHttpContent (-1) [.timeout]) := by
  refine ⟨by decide, by decide, ?_⟩
  rintro ⟨hsize, -⟩
  exact absurd hsize (by decide)

end Zevent.Minidownloader
