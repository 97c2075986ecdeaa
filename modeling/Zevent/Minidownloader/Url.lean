/-
# Reading a URL (`Parse_Url` of `http.c`)

`dlmanager::dlonefile` writes the URL of a file from the name and the port of a server, and
`Parse_Url` takes it apart again.  It scans at most 255 bytes of the URL, so the end of a long
resource is cut off, and it reads the port into a `short`, so a large port comes back as another
one.

* `parseUrl_scanned` is `Parse_Url` on the part of the URL that was scanned.
* `parseUrl_inverts_iff`: when what it stores is what the URL was made of.
-/
import Mathlib.Tactic
import Zevent.Lib.CString
import Zevent.Lib.Scanf

namespace Zevent.Minidownloader

open CString Numerals

/-- `OK`. -/
def retOk : ℤ := 0

/-- `HTTP_INVALID_URL`. -/
def httpInvalidUrl : ℤ := -894

/-- `MAX_PORT_SIZE`. -/
def maxPortSize : ℤ := 16383

/-- `MAX_PORT_STRING_LEN`. -/
def maxPortStringLen : ℕ := 5

/-- `DEFAULT_HTTP_PORT`. -/
def defaultHttpPort : ℤ := 80

/-- `MAX_HOST_LEN` and `MAX_RESOURCE_LEN`. -/
def maxHostLen : ℕ := 512

/-- `%hd` stores a number in a `short`. -/
def storeShort (z : ℤ) : ℤ := z.bmod (2 ^ 16)

/-- What a call returns, and what it has stored through its pointers. -/
structure Parsed where
  ret : ℤ
  host : Option (List UInt8)
  port : Option ℤ
  resource : Option (List UInt8)
deriving DecidableEq

/-- `Parse_Url` behind its two calls of `sscanf`. -/
def parseScanned (urlWoHttp : List UInt8) : Parsed :=
  match urlWoHttp.idxOf? 47 with
  | none => ⟨httpInvalidUrl, none, none, none⟩
  | some slash =>
      let resource := urlWoHttp.drop (slash + 1)
      match (urlWoHttp.idxOf? 58).filter (· < slash) with
      | none => ⟨retOk, some (urlWoHttp.take slash), some defaultHttpPort, some resource⟩
      | some colon =>
          if slash - (colon + 1) > maxPortStringLen then ⟨httpInvalidUrl, none, none, none⟩
          else
            let port := ((Scanf.int (urlWoHttp.drop (colon + 1))).map storeShort).getD
              defaultHttpPort
            if port < 0 ∨ port > maxPortSize then
              ⟨httpInvalidUrl, some (urlWoHttp.take colon), some port, none⟩
            else ⟨retOk, some (urlWoHttp.take colon), some port, some resource⟩

/-- `Parse_Url`, with pointers for everything that it can store. -/
def parseUrl (url : List UInt8) : Parsed :=
  match ((Scanf.literal (ascii "http://") url).bind (Scanf.word 255)).or (Scanf.word 255 url) with
  | none => ⟨httpInvalidUrl, none, none, none⟩
  | some urlWoHttp => parseScanned urlWoHttp

/-- `http://%s:%d/%s`, as `dlonefile` writes it; the resource has the root of the server in front
of it. -/
def fileUrl (host : List UInt8) (port : ℤ) (resource : List UInt8) : List UInt8 :=
  ascii "http://" ++ (host ++ 58 :: decimal port ++ 47 :: resource)

/-- A part of a URL: no white space, and no NUL. -/
def Plain (s : List UInt8) : Prop := ∀ c ∈ s, isSpace c = false ∧ c ≠ 0

instance (s : List UInt8) : Decidable (Plain s) :=
  inferInstanceAs (Decidable (∀ c ∈ s, isSpace c = false ∧ c ≠ 0))

/-! ## The part that is scanned -/

section Scanned

variable {host resource : List UInt8} {port : ℕ}

/-- The first byte of a kind. -/
theorem idxOf?_append_cons {s r : List UInt8} {c : UInt8} (h : c ∉ s) :
    (s ++ c :: r).idxOf? c = some s.length := by
  induction s with
  | nil => rw [List.nil_append, List.idxOf?_cons, beq_self_eq_true, if_pos rfl, List.length_nil]
  | cons d s ih =>
      rw [List.mem_cons, not_or] at h
      rw [List.cons_append, List.idxOf?_cons, beq_eq_false_iff_ne.mpr (Ne.symm h.1),
        if_neg Bool.false_ne_true, ih h.2, List.length_cons, Option.map_some]

theorem slash_notMem_natDecimal (n : ℕ) : 47 ∉ natDecimal n := fun h =>
  absurd (isDigit_natDecimal n 47 h) (by decide)

/-- What is behind it. -/
theorem drop_append_cons (s : List UInt8) (c : UInt8) (r : List UInt8) :
    (s ++ c :: r).drop (s.length + 1) = r := by
  rw [List.drop_length_add_append, List.drop_succ_cons, List.drop_zero]

/-- **What is stored for a host, a port and a resource.** -/
theorem parseUrl_scanned (hcolon : 58 ∉ host) (hslash : 47 ∉ host) (hport : port < 10 ^ 5) :
    parseScanned (host ++ 58 :: natDecimal port ++ 47 :: resource)
      = if storeShort port < 0 ∨ storeShort port > maxPortSize then
          ⟨httpInvalidUrl, some host, some (storeShort port), none⟩
        else ⟨retOk, some host, some (storeShort port), some resource⟩ := by
  have hfront : 47 ∉ host ++ 58 :: natDecimal port := by
    rw [List.mem_append, List.mem_cons, not_or, not_or]
    exact ⟨hslash, by decide, slash_notMem_natDecimal port⟩
  have hlen : (host ++ 58 :: natDecimal port).length
      = host.length + 1 + (natDecimal port).length := by
    rw [List.length_append, List.length_cons]
    omega
  have hdigits := length_natDecimal_le hport (by norm_num)
  have hfirst : (host ++ 58 :: natDecimal port ++ 47 :: resource).idxOf? 58
      = some host.length := by
    rw [List.append_assoc, List.cons_append, idxOf?_append_cons hcolon]
  have hnumber : (host ++ 58 :: natDecimal port ++ 47 :: resource).drop (host.length + 1)
      = natDecimal port ++ 47 :: resource := by
    rw [List.append_assoc, List.cons_append, drop_append_cons]
  have hhost : (host ++ 58 :: natDecimal port ++ 47 :: resource).take host.length = host := by
    rw [List.append_assoc, List.take_left' rfl]
  unfold parseScanned
  rw [idxOf?_append_cons hfront, hfirst]
  dsimp only
  rw [Option.filter_some, if_pos (decide_eq_true (by omega))]
  dsimp only
  rw [if_neg (by rw [maxPortStringLen]; omega), hnumber, drop_append_cons, hhost,
    ← decimal_natCast, Scanf.int_decimal port (by decide), Option.map_some, Option.getD_some]

/-- A slash that is too far behind is not found. -/
theorem parseScanned_cut (hslash : 47 ∉ host)
    (hlong : 255 ≤ host.length + 1 + (natDecimal port).length) :
    parseScanned ((host ++ 58 :: natDecimal port ++ 47 :: resource).take 255)
      = ⟨httpInvalidUrl, none, none, none⟩ := by
  have hfront : (host ++ 58 :: natDecimal port ++ 47 :: resource).take 255
      = (host ++ 58 :: natDecimal port).take 255 := by
    apply List.take_append_of_le_length
    rw [List.length_append, List.length_cons]
    omega
  have hnone : 47 ∉ (host ++ 58 :: natDecimal port).take 255 := by
    intro h
    rcases List.mem_append.mp (List.mem_of_mem_take h) with h | h
    · exact hslash h
    · exact slash_notMem_natDecimal port ((List.mem_cons.mp h).resolve_left (by decide))
  rw [hfront, parseScanned, List.idxOf?_eq_none_iff.mpr hnone]

/-- Otherwise the end of the resource may be cut off. -/
theorem take_scanned (hshort : host.length + 1 + (natDecimal port).length < 255) :
    (host ++ 58 :: natDecimal port ++ 47 :: resource).take 255
      = host ++ 58 :: natDecimal port
        ++ 47 :: resource.take (254 - (host.length + 1 + (natDecimal port).length)) := by
  have hlen : (host ++ 58 :: natDecimal port).length
      = host.length + 1 + (natDecimal port).length := by
    rw [List.length_append, List.length_cons]
    omega
  rw [List.take_append, List.take_of_length_le (by omega), hlen,
    show 255 - (host.length + 1 + (natDecimal port).length)
      = 254 - (host.length + 1 + (natDecimal port).length) + 1 by omega, List.take_succ_cons]

/-- What `Parse_Url` scans. -/
theorem parseUrl_fileUrl (hhost : Plain host) (hresource : Plain resource) :
    parseUrl (fileUrl host port resource)
      = parseScanned ((host ++ 58 :: natDecimal port ++ 47 :: resource).take 255) := by
  have hplain : ∀ c ∈ host ++ 58 :: natDecimal port ++ 47 :: resource, isSpace c = false := by
    intro c hc
    rcases List.mem_append.mp hc with hc | hc
    · rcases List.mem_append.mp hc with hc | hc
      · exact (hhost c hc).1
      · rcases List.mem_cons.mp hc with rfl | hc
        · rfl
        · exact (Scanf.digit_plain (isDigit_natDecimal port c hc)).1
    · rcases List.mem_cons.mp hc with rfl | hc
      · rfl
      · exact (hresource c hc).1
  unfold parseUrl fileUrl
  rw [decimal_natCast, Scanf.literal_append, Option.bind_some,
    Scanf.word_eq hplain (by simp) (by norm_num), Option.some_or]

/-- **An accepted URL**: all of the host and the port are scanned. -/
theorem parseUrl_accepted (hhost : Plain host) (hresource : Plain resource) (hcolon : 58 ∉ host)
    (hslash : 47 ∉ host) (hport : port < 10 ^ 5)
    (hshort : host.length + 1 + (natDecimal port).length < 255)
    (haccept : ¬ (storeShort port < 0 ∨ storeShort port > maxPortSize)) :
    parseUrl (fileUrl host port resource)
      = ⟨retOk, some host, some (storeShort port),
        some (resource.take (254 - (host.length + 1 + (natDecimal port).length)))⟩ := by
  rw [parseUrl_fileUrl hhost hresource, take_scanned hshort, parseUrl_scanned hcolon hslash hport,
    if_neg haccept]

end Scanned

/-! ## What is stored -/

theorem parseScanned_stored_le (urlWoHttp : List UInt8) :
    (∀ host ∈ (parseScanned urlWoHttp).host, host.length ≤ urlWoHttp.length) ∧
      ∀ resource ∈ (parseScanned urlWoHttp).resource, resource.length ≤ urlWoHttp.length := by
  have htake : ∀ n, ∀ s ∈ some (urlWoHttp.take n), s.length ≤ urlWoHttp.length := by
    rintro n _ ⟨⟩
    exact List.length_take_le' _ _
  have hdrop : ∀ n, ∀ s ∈ some (urlWoHttp.drop n), s.length ≤ urlWoHttp.length := by
    rintro n _ ⟨⟩
    rw [List.length_drop]
    exact Nat.sub_le _ _
  have hnone : ∀ s ∈ (none : Option (List UInt8)), s.length ≤ urlWoHttp.length := by
    rintro _ ⟨⟩
  unfold parseScanned
  split
  · exact ⟨hnone, hnone⟩
  · dsimp only
    split
    · exact ⟨htake _, hdrop _⟩
    · split_ifs
      · exact ⟨hnone, hnone⟩
      · exact ⟨htake _, hnone⟩
      · exact ⟨htake _, hdrop _⟩

/-- **For every URL**, what is stored fits into its array. -/
theorem parseUrl_fits (url : List UInt8) :
    (∀ host ∈ (parseUrl url).host, host.length < maxHostLen) ∧
      ∀ resource ∈ (parseUrl url).resource, resource.length < maxHostLen := by
  unfold parseUrl
  split
  · constructor
    · rintro _ ⟨⟩
    · rintro _ ⟨⟩
  · rename_i urlWoHttp hscan
    have hlen : urlWoHttp.length ≤ 255 := by
      rcases Option.or_eq_some_iff.mp hscan with h | ⟨-, h⟩
      · obtain ⟨s, -, hs⟩ := Option.bind_eq_some_iff.mp h
        exact Scanf.word_length_le hs
      · exact Scanf.word_length_le h
    obtain ⟨hhost, hresource⟩ := parseScanned_stored_le urlWoHttp
    exact ⟨fun s hs => ((hhost s hs).trans hlen).trans_lt (by decide),
      fun s hs => ((hresource s hs).trans hlen).trans_lt (by decide)⟩

/-- If the URL is accepted, what is stored is what it was made of, and fits into its array. -/
def Inverted (host : List UInt8) (port : ℕ) (resource : List UInt8) : Prop :=
  (parseUrl (fileUrl host port resource)).ret = retOk →
    (parseUrl (fileUrl host port resource)).host = some host ∧
    (parseUrl (fileUrl host port resource)).port = some (port : ℤ) ∧
    (parseUrl (fileUrl host port resource)).resource = some resource ∧
    host.length < maxHostLen ∧ resource.length < maxHostLen

instance (host : List UInt8) (port : ℕ) (resource : List UInt8) :
    Decidable (Inverted host port resource) :=
  inferInstanceAs (Decidable (_ → _))

/-- A port in a `short`. -/
theorem storeShort_rejected_iff {port : ℕ} :
    (storeShort port < 0 ∨ storeShort port > maxPortSize) ↔ 16383 < port % 2 ^ 16 := by
  rw [storeShort, maxPortSize, Int.bmod_def]
  split_ifs <;> omega

theorem storeShort_eq_iff {port : ℕ} (hport : port < 10 ^ 5) (hrange : port % 2 ^ 16 ≤ 16383) :
    storeShort port = port ↔ port ≤ 16383 := by
  rw [storeShort, Int.bmod_def]
  split_ifs <;> omega

/-- **When a URL is read back.**  The host and the port go beyond the part that is scanned, or the
port is taken for one out of range, so that the URL is refused; or the port is in range and the
whole URL is scanned. -/
theorem parseUrl_inverts_iff {host resource : List UInt8} {port : ℕ} (hhost : Plain host)
    (hcolon : 58 ∉ host) (hslash : 47 ∉ host) (hport : port < 10 ^ 5)
    (hresource : Plain resource) :
    Inverted host port resource ↔
      255 ≤ host.length + 1 + (natDecimal port).length ∨ 16383 < port % 2 ^ 16 ∨
        port ≤ 16383 ∧
          host.length + 1 + (natDecimal port).length + 1 + resource.length ≤ 255 := by
  unfold Inverted
  obtain ⟨hfits, hfits'⟩ := parseUrl_fits (fileUrl host port resource)
  rw [parseUrl_fileUrl hhost hresource] at hfits hfits' ⊢
  rcases Nat.lt_or_ge (host.length + 1 + (natDecimal port).length) 255 with hshort | hlong
  · rw [take_scanned hshort, parseUrl_scanned hcolon hslash hport] at hfits hfits' ⊢
    by_cases hreject : storeShort port < 0 ∨ storeShort port > maxPortSize
    · rw [if_pos hreject]
      exact ⟨fun _ => Or.inr (Or.inl (storeShort_rejected_iff.mp hreject)),
        fun _ hret => absurd hret (show httpInvalidUrl ≠ retOk by decide)⟩
    · rw [if_neg hreject] at hfits hfits' ⊢
      have hrange := not_lt.mp (mt storeShort_rejected_iff.mpr hreject)
      constructor
      · intro h
        obtain ⟨-, hsame, hwhole, -⟩ := h rfl
        have hsame := (storeShort_eq_iff hport hrange).mp (Option.some.inj hsame)
        have hwhole := List.take_eq_self_iff _ |>.mp (Option.some.inj hwhole)
        exact Or.inr (Or.inr ⟨hsame, by omega⟩)
      · rintro (h | h | ⟨hsame, hlen⟩)
        · omega
        · omega
        · rw [List.take_of_length_le (by omega)] at hfits' ⊢
          rw [(storeShort_eq_iff hport hrange).mpr hsame]
          exact fun _ => ⟨rfl, rfl, rfl, hfits host rfl, hfits' resource rfl⟩
  · rw [parseScanned_cut hslash hlong]
    exact ⟨fun _ => Or.inl hlong, fun _ hret => absurd hret (by decide)⟩

theorem plain_host : Plain (ascii "host") := by decide +kernel

theorem plain_file : Plain (ascii "file") := by decide +kernel

/-- A short URL. -/
theorem parseUrl_inverts_short :
    Inverted (ascii "host") 8080 (ascii "file") := by
  have hport : natDecimal 8080 = ascii "8080" := by decide
  refine (parseUrl_inverts_iff plain_host (by decide) (by decide) (by norm_num) plain_file).mpr
    (Or.inr (Or.inr ⟨by norm_num, ?_⟩))
  rw [hport]
  decide

/-- A resource of 300 bytes is cut off, and port 65616 is taken for port 80; both URLs are accepted
and fit into `MAX_URL_LEN` bytes. -/
theorem parseUrl_changes :
    (Plain (List.replicate 300 97) ∧
      (fileUrl (ascii "host") 80 (List.replicate 300 97)).length < 512 ∧
      ¬ Inverted (ascii "host") 80 (List.replicate 300 97)) ∧
    Plain (ascii "file") ∧ (fileUrl (ascii "host") 65616 (ascii "file")).length < 512 ∧
      ¬ Inverted (ascii "host") 65616 (ascii "file") := by
  have hlong : Plain (List.replicate 300 97) := fun c hc => by
    rw [List.eq_of_mem_replicate hc]
    decide
  have hcut := parseUrl_accepted plain_host hlong (by decide) (by decide)
    (show 80 < 10 ^ 5 by norm_num) (by decide) (by decide)
  have hother := parseUrl_accepted plain_host plain_file (by decide) (by decide)
    (show 65616 < 10 ^ 5 by norm_num) (by decide) (by decide)
  refine ⟨⟨hlong, by decide +kernel, fun h => ?_⟩, plain_file, by decide +kernel, fun h => ?_⟩
  · obtain ⟨-, -, hresource, -⟩ := h (congrArg Parsed.ret hcut)
    rw [hcut] at hresource
    have hlength := congrArg List.length (Option.some.inj hresource)
    rw [List.length_take, List.length_replicate] at hlength
    omega
  · obtain ⟨-, hport, -, -⟩ := h (congrArg Parsed.ret hother)
    rw [hother] at hport
    exact absurd (Option.some.inj hport) (by decide)

end Zevent.Minidownloader
