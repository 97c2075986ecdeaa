/-
# The configuration file (`src/iniparser.c`)

`iniparser_load` reads a file line by line into a dictionary: a line `[name]` opens a
section, which is a key without a value, and `key = value` is put under `section:key`;
`iniparser_dump_ini` writes the sections of a dictionary with their keys.

`dump_load`: for every dictionary with names and values that a file can carry, loading what
was dumped gives the same dictionary again, with the empty string for a value that is not
there.  An empty line makes the loader look at the byte in front of its line buffer, which
is a parameter here; the files that are dumped have such lines.
-/
import Mathlib.Tactic
import Zevent.Lib.CString
import Zevent.Lib.Lines
import Zevent.Lib.Scanf
import Zevent.Ini.Dictionary

namespace Zevent.Ini

open CString Lines Numerals

/-! ## One line -/

/-- `ASCIILINESZ`; the buffers have one byte more. -/
def asciiLineSz : ℕ := 1024

/-- `tolower`. -/
def lower (c : UInt8) : UInt8 := if 65 ≤ c ∧ c ≤ 90 then c + 32 else c

/-- `strlwc`. -/
def strlwc (s : List UInt8) : List UInt8 := (s.take asciiLineSz).map lower

/-- `strstrip`. -/
def strstrip (s : List UInt8) : List UInt8 := strip s

/-- `line_status`, with what the line gives: the section, or the key and the value. -/
inductive LineStatus where
  | empty
  | comment
  | «section» (name : List UInt8)
  | value (key val : List UInt8)
  | error
  deriving DecidableEq

/-- `"%[^=] = \"%[^\"]\""`, and the same with the other quote. -/
def scanQuoted (quote : UInt8) (line : List UInt8) : Option (List UInt8 × List UInt8) := do
  let (key, rest) ← Scanf.set (· != 61) line
  let rest ← Scanf.literal [61] (Scanf.blanks rest)
  let rest ← Scanf.literal [quote] (Scanf.blanks rest)
  let (val, _) ← Scanf.set (· != quote) rest
  some (key, val)

/-- `"%[^=] = %[^;#]"`. -/
def scanPlain (line : List UInt8) : Option (List UInt8 × List UInt8) := do
  let (key, rest) ← Scanf.set (· != 61) line
  let rest ← Scanf.literal [61] (Scanf.blanks rest)
  let (val, _) ← Scanf.set (fun c => c != 59 && c != 35) (Scanf.blanks rest)
  some (key, val)

/-- `"%[^=] = %[;#]"`: a comment in the place of the value. -/
def scanCommented (line : List UInt8) : Option (List UInt8) := do
  let (key, rest) ← Scanf.set (· != 61) line
  let rest ← Scanf.literal [61] (Scanf.blanks rest)
  let _ ← Scanf.set (fun c => c == 59 || c == 35) (Scanf.blanks rest)
  some key

/-- `"%[^=] %[=]"`: nothing behind the equals sign. -/
def scanBare (line : List UInt8) : Option (List UInt8) := do
  let (key, rest) ← Scanf.set (· != 61) line
  let _ ← Scanf.set (· == 61) (Scanf.blanks rest)
  some key

/-- `iniparser_line`; `sec` is what the buffer for the section holds. -/
def iniparserLine (inputLine sec : List UInt8) : LineStatus :=
  let line := strstrip inputLine
  if line = [] then .empty
  else if line.head? = some 35 then .comment
  else if line.head? = some 91 ∧ line.getLast? = some 93 then
    -- when nothing is scanned, the section is the one before
    .section (strlwc (strstrip (((Scanf.set (· != 93) (line.drop 1)).map Prod.fst).getD sec)))
  else
    match ((scanQuoted 34 line).or (scanQuoted 39 line)).or (scanPlain line) with
    | some (key, val) =>
        let val := strstrip val
        .value (strlwc (strstrip key)) (if val = [34, 34] ∨ val = [39, 39] then [] else val)
    | none =>
        match (scanCommented line).or (scanBare line) with
        | some key => .value (strlwc (strstrip key)) []
        | none => .error

/-! ## Loading -/

/-- A C string in a buffer. -/
def cstr (m : List UInt8) : Str := ⟨text m, nul_notMem_text m⟩

/-- What is carried from one line to the next: the section, the dictionary, and `errs`. -/
structure Loading where
  sec : List UInt8
  dict : Dictionary
  errs : ℤ

/-- The `switch` over a line; `none` is a write past the end of `tmp` (or of the dictionary). -/
def Loading.line (s : Loading) (line : List UInt8) : Option Loading :=
  match iniparserLine line s.sec with
  | .empty => some s
  | .comment => some s
  | .section name =>
      (s.dict.dictionarySet (cstr name) none).map fun dict => ⟨name, dict, 0⟩
  | .value key val =>
      if s.sec.length + 1 + key.length ≤ asciiLineSz then
        (s.dict.dictionarySet (cstr (s.sec ++ 58 :: key)) (some (cstr val))).map fun dict =>
          { s with dict := dict, errs := 0 }
      else none
  | .error => some { s with errs := s.errs + 1 }

theorem length_readLine_lt {n : ℕ} {file chunk rest : List UInt8}
    (h : readLine n file = (chunk, rest)) (hne : chunk ≠ []) : rest.length < file.length := by
  have happ := readLine_append n file
  rw [h] at happ
  have hpos := List.length_pos_of_ne_nil hne
  rw [← happ]
  simp only [List.length_append]
  omega

/-- The loop of `iniparser_load`.  `held` is the front of a line that a backslash continues,
`front` the byte in memory before the line.  The result is `some none` where the code returns
`NULL`. -/
def loadLoop (front : UInt8) (file held : List UInt8) (s : Loading) :
    Option (Option Dictionary) :=
  if file = [] then some (if s.errs = 0 then some s.dict else none)
  else
    match _h : readLine (asciiLineSz - held.length - 1) file with
    | (chunk, rest) =>
        if _hc : chunk = [] then some none
        else
          let line := text (held ++ chunk)
          -- "input line too long"
          if (line.getLast?).getD front ≠ 10 then some none
          else
            let line := line.rdropWhile isSpace
            if (line.getLast?).getD front = 92 then
              -- an empty line is continued in front of the buffer
              if line = [] then none else loadLoop front rest line.dropLast s
            else
              match s.line line with
              | some s => loadLoop front rest [] s
              | none => none
termination_by file.length
decreasing_by
  · exact length_readLine_lt ‹_› ‹_›
  · exact length_readLine_lt ‹_› ‹_›

/-- `iniparser_load`, of a file that can be opened. -/
def iniparserLoad (front : UInt8) (file : List UInt8) : Option (Option Dictionary) :=
  loadLoop front file [] ⟨[], Dictionary.dictionaryNew 0, 0⟩

/-! ## Dumping -/

/-- The name of a section: a key without a colon. -/
def Slot.secname (s : Slot) : Option Str := s.key.filter fun k => 58 ∉ k.val

/-- `iniparser_getnsec`. -/
def iniparserGetnsec (d : Dictionary) : ℕ := d.slots.countP fun s => s.secname.isSome

/-- `iniparser_getsecname`. -/
def iniparserGetsecname (d : Dictionary) (n : ℕ) : Option Str :=
  (d.slots.filterMap Slot.secname)[n]?

/-- `%-30s = %s`. -/
def entryText (key val : List UInt8) : List UInt8 :=
  key ++ List.replicate (30 - key.length) 32 ++ [32, 61, 32] ++ val

/-- The entries of a section, each with its newline. -/
def dumpEntries (d : Dictionary) (sec : Str) : List UInt8 :=
  d.slots.flatMap fun s =>
    match s.key with
    | none => []
    | some key =>
        if (sec.val ++ [58]).isPrefixOf key.val then
          entryText (key.val.drop (sec.val.length + 1)) ((s.val.map Subtype.val).getD []) ++ [10]
        else []

/-- A section: its name and its entries.  `none` is a write past the end of `keym`. -/
def dumpSection (d : Dictionary) (n : ℕ) : Option (List UInt8) := do
  let sec ← iniparserGetsecname d n
  if sec.val.length + 1 ≤ asciiLineSz then
    some ([10, 91] ++ sec.val ++ [93, 10] ++ dumpEntries d sec)
  else none

/-- `iniparser_dump_ini`; without any section the keys are written as they are. -/
def iniparserDumpIni (d : Dictionary) : Option (List UInt8) :=
  if iniparserGetnsec d < 1 then
    some (d.slots.flatMap fun s =>
      match s.key with
      | none => []
      | some key =>
          key.val ++ [32, 61, 32] ++ ((s.val.map Subtype.val).getD (ascii "(null)")) ++ [10])
  else do
    let sections ← (List.range (iniparserGetnsec d)).mapM (dumpSection d)
    some (sections.flatten ++ [10])

/-! ## What a file can carry -/

/-- A name that is read back as it is: trimmed, in lower case, in one line, and not too long
for the buffers. -/
structure Tidy (s : List UInt8) : Prop where
  trimmed : Trimmed s
  lower : s.map lower = s
  oneLine : 10 ∉ s
  short : s.length ≤ 1020

/-- The name of a section. -/
structure SectionName (s : List UInt8) : Prop extends Tidy s where
  no_bracket : 93 ∉ s
  no_colon : 58 ∉ s

/-- The name of a key: it is not taken for a comment or a section, nor is a part of it. -/
structure KeyName (s : List UInt8) : Prop extends Tidy s where
  no_equals : 61 ∉ s
  no_comment : s.head? ≠ some 35
  no_bracket : s.head? ≠ some 91

/-- A value: empty, or trimmed, in one line, without the marks of comments, quotes and
continuations in the places where they count. -/
def ValueText (v : List UInt8) : Prop :=
  v = [] ∨ Trimmed v ∧ 10 ∉ v ∧ 59 ∉ v ∧ 35 ∉ v ∧ v.head? ≠ some 34 ∧ v.head? ≠ some 39
    ∧ v.getLast? ≠ some 92

/-- The text of a value, `NULL` being written as nothing. -/
def valueText (v : Option Str) : List UInt8 := (v.map Subtype.val).getD []

/-- What a dictionary may have under a key: nothing for a section; under `section:key`, with
a section that is there, a value that fits into a line with its key. -/
def Carried (d : Dictionary) (key : Str) (v : Option Str) : Prop :=
  (SectionName key.val ∧ v = none) ∨
    ∃ (sec : Str) (k : List UInt8), key.val = sec.val ++ 58 :: k ∧ SectionName sec.val ∧
      (d.dictionaryGet sec).isSome ∧ KeyName k ∧ ValueText (valueText v) ∧
      sec.val.length + 1 + k.length ≤ asciiLineSz ∧
      (entryText k (valueText v)).length + 1 < asciiLineSz

/-! ## The lines of a dumped file -/

theorem Tidy.strlwc_eq {s : List UInt8} (h : Tidy s) : strlwc s = s := by
  have hshort := h.short
  rw [strlwc, List.take_of_length_le (by rw [asciiLineSz]; omega), h.lower]

theorem Tidy.strip_padded {s w : List UInt8} (h : Tidy s) (hw : ∀ c ∈ w, isSpace c = true) :
    strlwc (strstrip (s ++ w)) = s := by
  have hstrip := Lines.strip_padded (w := []) h.trimmed (by simp) hw
  rw [List.nil_append] at hstrip
  rw [strstrip, hstrip, h.strlwc_eq]

theorem trimmed_singleton {c : UInt8} (h : isSpace c = false) : Trimmed [c] := ⟨by simp, h, h⟩

/-- **A section line.** -/
theorem iniparserLine_section {s : List UInt8} (h : SectionName s) (sec : List UInt8) :
    iniparserLine ([91] ++ s ++ [93]) sec = .section s := by
  have htrim : Trimmed ([91] ++ s ++ [93]) :=
    (trimmed_singleton (by decide)).between s (trimmed_singleton (by decide))
  have hscan : Scanf.set (· != 93) (s ++ [93]) = some (s, [93]) := by
    apply Scanf.set_append
    · intro c hc
      rw [bne_iff_ne]
      rintro rfl
      exact h.no_bracket hc
    · exact h.trimmed.ne_nil
    · rintro c ⟨⟩
      rfl
  have hname : strlwc (strstrip s) = s := by
    rw [strstrip, h.trimmed.strip_eq, h.strlwc_eq]
  have hline : strstrip ([91] ++ s ++ [93]) = 91 :: (s ++ [93]) := by
    rw [strstrip, htrim.strip_eq]
    simp
  rw [iniparserLine, hline]
  simp only [reduceCtorEq, if_false, List.head?_cons, List.drop_succ_cons, List.drop_zero, hscan]
  have hlast : (91 :: (s ++ [93])).getLast? = some 93 := by
    rw [← List.cons_append, List.getLast?_append_cons]
    rfl
  rw [if_neg (by decide), if_pos ⟨trivial, hlast⟩]
  simp only [Option.map_some, Option.getD_some, hname]

/-- The line of an entry, after its trailing blanks are gone. -/
def entryLine (k v : List UInt8) : List UInt8 :=
  k ++ (List.replicate (30 - k.length) 32 ++ [32]) ++ 61 :: (if v = [] then [] else 32 :: v)

/-- What `%[^=]` reads of it. -/
theorem set_entryLine {k : List UInt8} (hk : KeyName k) (v : List UInt8) :
    Scanf.set (· != 61) (entryLine k v)
      = some (k ++ (List.replicate (30 - k.length) 32 ++ [32]),
          61 :: (if v = [] then [] else 32 :: v)) := by
  apply Scanf.set_append
  · intro c hc
    rw [bne_iff_ne]
    rintro rfl
    rcases List.mem_append.mp hc with hc | hc
    · exact hk.no_equals hc
    · rcases List.mem_append.mp hc with hc | hc
      · exact absurd (List.eq_of_mem_replicate hc) (by decide)
      · exact absurd (List.mem_singleton.mp hc) (by decide)
  · simp
  · rintro c ⟨⟩
    rfl

theorem literal_ne {c : UInt8} {s : List UInt8} (h : s.head? ≠ some c) :
    Scanf.literal [c] s = none := by
  rw [Scanf.literal, if_neg]
  rw [List.isPrefixOf_iff_prefix]
  rintro ⟨t, rfl⟩
  exact h rfl

theorem literal_equals (s : List UInt8) :
    Scanf.literal [61] (Scanf.blanks (61 :: s)) = some s := by
  have hblanks : Scanf.blanks (61 :: s) = [61] ++ s :=
    List.dropWhile_cons_of_neg (by decide)
  rw [hblanks, Scanf.literal_append]

/-- **An entry's line.** -/
theorem iniparserLine_entry {k v : List UInt8} (hk : KeyName k) (hv : ValueText v)
    (sec : List UInt8) : iniparserLine (entryLine k v) sec = .value k v := by
  obtain ⟨c, t, hct⟩ := List.exists_cons_of_ne_nil hk.trimmed.ne_nil
  have hpad : ∀ c ∈ List.replicate (30 - k.length) (32 : UInt8) ++ [32], isSpace c = true := by
    intro c hc
    rcases List.mem_append.mp hc with hc | hc
    · exact isSpace_of_mem_replicate hc
    · rw [List.mem_singleton.mp hc]
      rfl
  have hkey : strlwc (strstrip (k ++ (List.replicate (30 - k.length) 32 ++ [32]))) = k :=
    hk.strip_padded hpad
  have htrim : strstrip (entryLine k v) = entryLine k v := by
    rw [strstrip]
    apply Trimmed.strip_eq
    rw [entryLine]
    split_ifs with hnil
    · exact hk.trimmed.between _ (trimmed_singleton (by decide))
    · rcases hv with hv | ⟨hv, -⟩
      · exact absurd hv hnil
      · have hmid := hk.trimmed.between (List.replicate (30 - k.length) 32 ++ [32] ++ [61, 32]) hv
        simpa using hmid
  have hhead : (entryLine k v).head? = k.head? := by
    rw [entryLine, hct]
    rfl
  have hne : entryLine k v ≠ [] := by
    rw [entryLine, hct]
    simp
  rw [iniparserLine, htrim]
  simp only [hne, if_false, hhead, hk.no_comment, hk.no_bracket, false_and]
  rcases hv with rfl | ⟨htv, -, hsemi, hhash, hdq, hsq, -⟩
  · -- nothing behind the equals sign: every scan but the last one fails
    have hset := set_entryLine hk []
    rw [if_pos rfl] at hset
    have hbare : Scanf.set (· == 61) (Scanf.blanks [61]) = some ([61], []) := rfl
    simp only [scanQuoted, scanPlain, scanCommented, scanBare, hset, Option.bind_eq_bind,
      Option.bind_some, literal_equals, hbare]
    simp only [Scanf.blanks, List.dropWhile_nil, literal_ne (s := []) (c := 34) (by simp),
      literal_ne (s := []) (c := 39) (by simp), Option.bind_none, Scanf.set, List.takeWhile_nil,
      Option.or_none, Option.none_or, hkey]
  · have hset := set_entryLine hk v
    rw [if_neg htv.ne_nil] at hset
    have hblanks : Scanf.blanks (32 :: v) = v := by
      have hspace : ∀ c ∈ [(32 : UInt8)], isSpace c = true := by
        intro c hc
        rw [List.mem_singleton.mp hc]
        rfl
      have hdrop := htv.dropWhile_append hspace []
      rw [List.append_nil] at hdrop
      exact hdrop
    have hval : Scanf.set (fun c => c != 59 && c != 35) v = some (v, []) := by
      have hall : Scanf.set (fun c => c != 59 && c != 35) (v ++ []) = some (v, []) := by
        refine Scanf.set_append ?_ htv.ne_nil (by simp)
        intro c hc
        rw [Bool.and_eq_true, bne_iff_ne, bne_iff_ne]
        constructor
        · rintro rfl
          exact hsemi hc
        · rintro rfl
          exact hhash hc
      rwa [List.append_nil] at hall
    have hplain : strstrip v = v := htv.strip_eq
    have hquotes : ¬ (v = [34, 34] ∨ v = [39, 39]) := by
      rintro (rfl | rfl)
      · exact hdq rfl
      · exact hsq rfl
    simp only [scanQuoted, scanPlain, hset, Option.bind_eq_bind, Option.bind_some,
      literal_equals, hblanks, literal_ne hdq, literal_ne hsq, Option.bind_none, Option.or_none,
      hval, Option.none_or, hplain, hquotes, if_false, hkey]

/-! ## Loading a dumped file -/

theorem text_str (w : Str) : text w.val = w.val := by
  have h := text_append (t := []) w.property
  rw [List.append_nil] at h
  rw [h]
  exact List.append_nil _

theorem cstr_val (w : Str) : cstr w.val = w := Subtype.ext (text_str w)

variable {front : UInt8} {s : Loading} {m : Str → Option (Option Str)}

/-- **One line that fits**, without a NUL and without a backslash at its end. -/
theorem loadLoop_line {l : List UInt8} (hnl : 10 ∉ l) (hnul : 0 ∉ l)
    (hlen : l.length + 1 < asciiLineSz) (hfront : front ≠ 92)
    (hback : (l.rdropWhile isSpace).getLast? ≠ some 92) (rest : List UInt8) :
    loadLoop front (l ++ 10 :: rest) [] s
      = (s.line (l.rdropWhile isSpace)).bind fun s => loadLoop front rest [] s := by
  have hread : readLine (asciiLineSz - ([] : List UInt8).length - 1) (l ++ 10 :: rest)
      = (l ++ [10], rest) := by
    apply readLine_line hnl
    rw [List.length_nil]
    omega
  have htext : text ([] ++ (l ++ [10])) = l ++ [10] := by
    rw [List.nil_append, text_append hnul]
    rfl
  have hlast : ((l.rdropWhile isSpace).getLast?).getD front ≠ 92 := by
    cases hget : (l.rdropWhile isSpace).getLast? with
    | none => exact hfront
    | some c =>
        rintro rfl
        exact hback hget
  rw [loadLoop, if_neg (by simp)]
  split
  rename_i chunk rest' hread'
  rw [hread, Prod.mk.injEq] at hread'
  obtain ⟨rfl, rfl⟩ := hread'
  rw [dif_neg (by simp)]
  simp only [htext]
  rw [if_neg (by simp), List.rdropWhile_concat_pos _ _ _ (by decide), if_neg hlast]
  cases s.line (l.rdropWhile isSpace) <;> rfl

/-- What loading has come to: the section, the map, and no errors. -/
structure Loading.Holds (s : Loading) (sec : List UInt8) (m : Str → Option (Option Str)) :
    Prop where
  sec_eq : s.sec = sec
  stands : s.dict.Stands m
  no_errors : s.errs = 0

/-- An empty line changes nothing. -/
theorem load_empty (hfront : front ≠ 92) (rest : List UInt8) :
    loadLoop front (10 :: rest) [] s = loadLoop front rest [] s := by
  have h := loadLoop_line (s := s) (l := []) (by simp) (by simp) (by decide) hfront (by simp) rest
  exact h

/-- The line of a section opens it. -/
theorem load_section {sec : Str} (hsec : SectionName sec.val) (hfront : front ≠ 92)
    (hs : s.dict.Stands m) (rest : List UInt8) :
    ∃ s', loadLoop front ([91] ++ sec.val ++ [93] ++ 10 :: rest) [] s = loadLoop front rest [] s' ∧
      s'.Holds sec.val (Function.update m sec (some none)) := by
  have htrim : Trimmed ([91] ++ sec.val ++ [93]) :=
    (trimmed_singleton (by decide)).between _ (trimmed_singleton (by decide))
  have hstrip : ([91] ++ sec.val ++ [93]).rdropWhile isSpace = [91] ++ sec.val ++ [93] := by
    have h := htrim.rdropWhile_append (w := []) (by simp)
    rwa [List.append_nil] at h
  obtain ⟨dict, hset, hstands⟩ := hs.set sec none
  refine ⟨⟨sec.val, dict, 0⟩, ?_, rfl, hstands, rfl⟩
  rw [loadLoop_line (by simp [hsec.oneLine]) (by simp [sec.property]) ?_ hfront ?_, hstrip,
    Loading.line, iniparserLine_section hsec]
  · simp only [cstr_val, hset, Option.map_some, Option.bind_some]
  · have hshort := hsec.short
    simp only [List.length_append, List.length_singleton, asciiLineSz]
    omega
  · rw [hstrip, List.getLast?_append_of_ne_nil _ (by simp)]
    decide

/-- What `fgets` gives for an entry, stripped at its end. -/
theorem rdropWhile_entryText {k v : List UInt8} (hv : ValueText v) :
    (entryText k v).rdropWhile isSpace = entryLine k v := by
  have heq : Trimmed [(61 : UInt8)] := trimmed_singleton (by decide)
  rw [entryText, entryLine]
  rcases hv with rfl | ⟨hv, -⟩
  · rw [if_pos rfl, List.append_nil]
    have hsplit : k ++ List.replicate (30 - k.length) 32 ++ [32, 61, 32]
        = k ++ (List.replicate (30 - k.length) 32 ++ [32]) ++ [61] ++ [32] := by simp
    rw [hsplit, List.rdropWhile_concat_pos _ _ _ (by decide),
      List.rdropWhile_concat_neg _ _ _ (by decide)]
  · rw [if_neg hv.ne_nil]
    have hsplit : k ++ List.replicate (30 - k.length) 32 ++ [32, 61, 32] ++ v
        = k ++ (List.replicate (30 - k.length) 32 ++ [32]) ++ 61 :: 32 :: v := by simp
    rw [hsplit, List.rdropWhile_eq_self_iff]
    intro hne
    rw [List.getLast_append_of_ne_nil _ (by simp), List.getLast_cons (by simp),
      List.getLast_cons hv.ne_nil, hv.back]
    exact Bool.false_ne_true

/-- The line of an entry sets its key. -/
theorem load_entry {sec : Str} {key : Str} {k : List UInt8} {v : Str}
    (hkey : key.val = sec.val ++ 58 :: k) (hk : KeyName k) (hv : ValueText v.val)
    (hfits : sec.val.length + 1 + k.length ≤ asciiLineSz)
    (hline : (entryText k v.val).length + 1 < asciiLineSz) (hfront : front ≠ 92)
    (hs : s.Holds sec.val m) (rest : List UInt8) :
    ∃ s', loadLoop front (entryText k v.val ++ 10 :: rest) [] s = loadLoop front rest [] s' ∧
      s'.Holds sec.val (Function.update m key (some (some v))) := by
  have hnulk : 0 ∉ k := by
    intro h
    apply key.property
    rw [hkey]
    simp [h]
  have hnul : 0 ∉ entryText k v.val := by
    rw [entryText]
    simp [hnulk, v.property]
  have hnl : 10 ∉ entryText k v.val := by
    have hv10 : 10 ∉ v.val := by
      rcases hv with hv | ⟨-, hv, -⟩
      · simp [hv]
      · exact hv
    rw [entryText]
    simp [hk.oneLine, hv10]
  have hback : (entryLine k v.val).getLast? ≠ some 92 := by
    rw [entryLine, List.getLast?_append_of_ne_nil _ (by simp)]
    rcases hv with hv | ⟨hv, -, -, -, -, -, hlast⟩
    · rw [if_pos hv]
      decide
    · obtain ⟨c, t, hct⟩ := List.exists_cons_of_ne_nil hv.ne_nil
      rw [if_neg hv.ne_nil, List.getLast?_cons_cons, hct, List.getLast?_cons_cons, ← hct]
      exact hlast
  have hckey : cstr (sec.val ++ 58 :: k) = key := by
    apply Subtype.ext
    rw [cstr, ← hkey]
    exact text_str key
  obtain ⟨dict, hset, hstands⟩ := hs.stands.set key (some v)
  refine ⟨⟨s.sec, dict, 0⟩, ?_, hs.sec_eq, hstands, rfl⟩
  rw [loadLoop_line hnl hnul hline hfront (by rw [rdropWhile_entryText hv]; exact hback),
    rdropWhile_entryText hv, Loading.line, iniparserLine_entry hk hv]
  simp only [hs.sec_eq, if_pos hfits, hckey, cstr_val, hset, Option.map_some, Option.bind_some]

/-! ## A whole dictionary -/

/-- What is written about a section: the keys of its entries, as the loader sees them, with
their values. -/
def entriesOf (d : Dictionary) (sec : Str) : List (Str × Option Str) :=
  d.slots.filterMap fun s =>
    (s.key.filter fun key => (sec.val ++ [58]).isPrefixOf key.val).map fun key => (key, s.val)

/-- The lines of the entries, as they are dumped. -/
def entryLines (sec : Str) (es : List (Str × Option Str)) : List UInt8 :=
  es.flatMap fun e => entryText (e.1.val.drop (sec.val.length + 1)) (valueText e.2) ++ [10]

theorem dumpEntries_eq (d : Dictionary) (sec : Str) :
    dumpEntries d sec = entryLines sec (entriesOf d sec) := by
  rw [dumpEntries, entryLines, entriesOf]
  induction d.slots with
  | nil => rfl
  | cons s slots ih =>
      rw [List.flatMap_cons, ih, List.filterMap_cons]
      cases s.key with
      | none => rfl
      | some key =>
          by_cases hpre : (sec.val ++ [58]).isPrefixOf key.val
          · simp only [Option.filter, hpre, if_true, Option.map_some, List.flatMap_cons]
            rfl
          · simp only [Option.filter, hpre]
            rfl

/-- The empty string where there is no value. -/
def written (v : Option Str) : Option Str := some (v.getD ⟨[], List.not_mem_nil⟩)

theorem valueText_written (v : Option Str) :
    valueText v = (v.getD ⟨[], List.not_mem_nil⟩).val := by
  cases v <;> rfl

/-- Keys that are set one after another. -/
def sets (cs : List (Str × Option Str)) (m : Str → Option (Option Str)) :
    Str → Option (Option Str) :=
  cs.foldl (fun m c => Function.update m c.1 (some c.2)) m

/-- The entries of a section, one after another. -/
theorem load_entries {sec : Str} (hfront : front ≠ 92) (es : List (Str × Option Str))
    (hes : ∀ e ∈ es, ∃ k, e.1.val = sec.val ++ 58 :: k ∧ KeyName k ∧ ValueText (valueText e.2) ∧
      sec.val.length + 1 + k.length ≤ asciiLineSz ∧
      (entryText k (valueText e.2)).length + 1 < asciiLineSz)
    (hs : s.Holds sec.val m) (rest : List UInt8) :
    ∃ s', loadLoop front (entryLines sec es ++ rest) [] s = loadLoop front rest [] s' ∧
      s'.Holds sec.val (sets (es.map fun e => (e.1, written e.2)) m) := by
  induction es generalizing s m with
  | nil => exact ⟨s, rfl, hs⟩
  | cons e es ih =>
      obtain ⟨k, hkey, hk, hv, hfits, hline⟩ := hes e List.mem_cons_self
      rw [valueText_written] at hv hline
      obtain ⟨s₁, h₁, hs₁⟩ :=
        load_entry hkey hk hv hfits hline hfront hs (entryLines sec es ++ rest)
      obtain ⟨s₂, h₂, hs₂⟩ := ih (fun e he => hes e (List.mem_cons_of_mem _ he)) hs₁
      refine ⟨s₂, ?_, hs₂⟩
      have hdrop : e.1.val.drop (sec.val.length + 1) = k := by
        rw [hkey, List.drop_append, List.drop_eq_nil_of_le (Nat.le_succ _), List.nil_append,
          Nat.add_sub_cancel_left, List.drop_succ_cons, List.drop_zero]
      have hsplit : entryLines sec (e :: es) ++ rest
          = entryText k (valueText e.2) ++ 10 :: (entryLines sec es ++ rest) := by
        rw [entryLines, List.flatMap_cons, hdrop, ← entryLines]
        simp
      rw [hsplit, valueText_written, h₁, h₂]

/-- The text of a section. -/
def sectionText (d : Dictionary) (sec : Str) : List UInt8 :=
  [10, 91] ++ sec.val ++ [93, 10] ++ dumpEntries d sec

/-- What loading the text of a section sets, in its order. -/
def sectionSets (d : Dictionary) (sec : Str) : List (Str × Option Str) :=
  (sec, none) :: (entriesOf d sec).map fun e => (e.1, written e.2)

/-- The entries of a section are entries that a file can carry. -/
def CarriedSection (d : Dictionary) (sec : Str) : Prop :=
  SectionName sec.val ∧ ∀ e ∈ entriesOf d sec, ∃ k, e.1.val = sec.val ++ 58 :: k ∧ KeyName k ∧
    ValueText (valueText e.2) ∧ sec.val.length + 1 + k.length ≤ asciiLineSz ∧
    (entryText k (valueText e.2)).length + 1 < asciiLineSz

/-- The sections, one after another. -/
theorem load_sections {d : Dictionary} (hfront : front ≠ 92) (secs : List Str)
    (hsecs : ∀ sec ∈ secs, CarriedSection d sec) (hs : s.dict.Stands m) (herrs : s.errs = 0)
    (rest : List UInt8) :
    ∃ s', loadLoop front (secs.flatMap (sectionText d) ++ rest) [] s
        = loadLoop front rest [] s' ∧ s'.errs = 0 ∧
      s'.dict.Stands (sets (secs.flatMap (sectionSets d)) m) := by
  induction secs generalizing s m with
  | nil => exact ⟨s, rfl, herrs, hs⟩
  | cons sec secs ih =>
      obtain ⟨hsec, hes⟩ := hsecs sec List.mem_cons_self
      obtain ⟨s₁, h₁, hs₁⟩ := load_section hsec hfront hs
        (entryLines sec (entriesOf d sec) ++ (secs.flatMap (sectionText d) ++ rest))
      obtain ⟨s₂, h₂, hs₂⟩ := load_entries hfront (entriesOf d sec) hes hs₁
        (secs.flatMap (sectionText d) ++ rest)
      obtain ⟨s₃, h₃, herrs₃, hs₃⟩ := ih (fun sec hsec => hsecs sec (List.mem_cons_of_mem _ hsec))
        hs₂.stands hs₂.no_errors
      refine ⟨s₃, ?_, herrs₃, ?_⟩
      · have hsplit : (sec :: secs).flatMap (sectionText d) ++ rest
            = 10 :: ([91] ++ sec.val ++ [93] ++ 10 :: (entryLines sec (entriesOf d sec)
              ++ (secs.flatMap (sectionText d) ++ rest))) := by
          rw [List.flatMap_cons, sectionText, dumpEntries_eq]
          simp
        rw [hsplit, load_empty hfront, h₁, h₂, h₃]
      · rw [sets, List.flatMap_cons, List.foldl_append]
        exact hs₃

/-- Keys that are set to what `target` has for them. -/
theorem sets_apply (target : Str → Option (Option Str)) (cs : List (Str × Option Str))
    (hcs : ∀ c ∈ cs, target c.1 = some c.2) (m : Str → Option (Option Str)) (key : Str) :
    sets cs m key = if key ∈ cs.map Prod.fst then target key else m key := by
  induction cs generalizing m with
  | nil => rfl
  | cons c cs ih =>
      rw [sets, List.foldl_cons, ← sets, ih fun c hc => hcs c (List.mem_cons_of_mem _ hc)]
      by_cases hkey : key = c.1
      · subst hkey
        rw [if_pos (List.mem_map_of_mem List.mem_cons_self)]
        split_ifs
        · rfl
        · rw [Function.update_self, hcs c List.mem_cons_self]
      · rw [Function.update_of_ne hkey]
        simp only [List.map_cons, List.mem_cons, hkey, false_or]

/-! ## The round trip -/

section RoundTrip

variable {d : Dictionary}

/-- The slots have what `dictionary_get` finds. -/
theorem get_iff (h : d.Stands m) {key : Str} {v : Option Str} :
    d.dictionaryGet key = some v ↔ ∃ s ∈ d.slots, s.key = some key ∧ s.val = v := by
  rw [h.get, h.represents.holds]
  constructor
  · rintro ⟨i, hi⟩
    rw [Dictionary.table, List.getElem?_map, Option.map_eq_some_iff] at hi
    obtain ⟨s, hs, hentry⟩ := hi
    exact ⟨s, List.mem_of_getElem? hs, Slot.entry_eq_some.mp hentry⟩
  · rintro ⟨s, hs, hkey⟩
    obtain ⟨i, hi⟩ := List.mem_iff_getElem?.mp hs
    exact ⟨i, by rw [Dictionary.getElem?_table hi, Slot.entry_eq_some.mpr hkey]⟩

/-- The names of the sections. -/
theorem mem_secnames (h : d.Stands m) {sec : Str} :
    sec ∈ d.slots.filterMap Slot.secname ↔ (d.dictionaryGet sec).isSome ∧ 58 ∉ sec.val := by
  rw [List.mem_filterMap, Option.isSome_iff_exists]
  constructor
  · rintro ⟨s, hs, hsec⟩
    obtain ⟨hkey, hcolon⟩ := Option.filter_eq_some_iff.mp hsec
    exact ⟨⟨s.val, (get_iff h).mpr ⟨s, hs, hkey, rfl⟩⟩, of_decide_eq_true hcolon⟩
  · rintro ⟨⟨v, hv⟩, hcolon⟩
    obtain ⟨s, hs, hkey, -⟩ := (get_iff h).mp hv
    exact ⟨s, hs, Option.filter_eq_some_iff.mpr ⟨hkey, decide_eq_true hcolon⟩⟩

/-- The entries of a section. -/
theorem mem_entriesOf (h : d.Stands m) {sec key : Str} {v : Option Str} :
    (key, v) ∈ entriesOf d sec
      ↔ d.dictionaryGet key = some v ∧ ∃ k, key.val = sec.val ++ 58 :: k := by
  rw [entriesOf, List.mem_filterMap, get_iff h]
  have hprefix : (sec.val ++ [58]).isPrefixOf key.val = true
      ↔ ∃ k, key.val = sec.val ++ 58 :: k := by
    rw [List.isPrefixOf_iff_prefix]
    constructor
    · rintro ⟨k, hk⟩
      exact ⟨k, by rw [← hk]; simp⟩
    · rintro ⟨k, hk⟩
      exact ⟨k, by rw [hk]; simp⟩
  constructor
  · rintro ⟨s, hs, hentry⟩
    obtain ⟨key', hfilter, ⟨⟩⟩ := Option.map_eq_some_iff.mp hentry
    obtain ⟨hkey, hpre⟩ := Option.filter_eq_some_iff.mp hfilter
    exact ⟨⟨s, hs, hkey, rfl⟩, hprefix.mp hpre⟩
  · rintro ⟨⟨s, hs, hkey, rfl⟩, hk⟩
    refine ⟨s, hs, ?_⟩
    rw [Option.filter_eq_some_iff.mpr ⟨hkey, hprefix.mpr hk⟩, Option.map_some]

/-- The section in front of a key is the one before the first colon. -/
theorem section_unique {sec sec' : Str} {k k' : List UInt8} (hsec : SectionName sec.val)
    (hsec' : SectionName sec'.val) (h : sec.val ++ 58 :: k = sec'.val ++ 58 :: k') :
    sec = sec' ∧ k = k' := by
  have hscan : ∀ {sec : Str} (k : List UInt8), SectionName sec.val →
      Scanf.set (· != 58) (sec.val ++ 58 :: k) = some (sec.val, 58 :: k) := by
    intro sec k hsec
    apply Scanf.set_append
    · intro c hc
      rw [bne_iff_ne]
      rintro rfl
      exact hsec.no_colon hc
    · exact hsec.trimmed.ne_nil
    · rintro c ⟨⟩
      rfl
  have heq := hscan k hsec
  rw [h, hscan k' hsec', Option.some.injEq, Prod.mk.injEq, List.cons.injEq] at heq
  exact ⟨Subtype.ext heq.1.symm, heq.2.2.symm⟩

/-- The file carries every section. -/
theorem carriedSection (h : d.Stands m)
    (hcarried : ∀ key v, d.dictionaryGet key = some v → Carried d key v) {sec : Str}
    (hsec : sec ∈ d.slots.filterMap Slot.secname) : CarriedSection d sec := by
  obtain ⟨hsome, hcolon⟩ := (mem_secnames h).mp hsec
  obtain ⟨v, hv⟩ := Option.isSome_iff_exists.mp hsome
  have hname : SectionName sec.val := by
    rcases hcarried sec v hv with ⟨hname, -⟩ | ⟨sec', k, hkey, -⟩
    · exact hname
    · exact absurd (by rw [hkey]; simp) hcolon
  refine ⟨hname, ?_⟩
  rintro ⟨key, w⟩ he
  obtain ⟨hw, k, hkey⟩ := (mem_entriesOf h).mp he
  rcases hcarried key w hw with ⟨hkeyname, -⟩ | ⟨sec', k', hkey', hname', -, hk', hrest⟩
  · exact absurd (by rw [hkey]; simp) hkeyname.no_colon
  · obtain ⟨rfl, rfl⟩ := section_unique hname hname' (hkey.symm.trans hkey')
    exact ⟨k, hkey, hk', hrest⟩

/-- The sections are dumped one after another. -/
theorem mapM_dumpSection (h : d.Stands m)
    (hcarried : ∀ key v, d.dictionaryGet key = some v → Carried d key v) :
    (List.range (iniparserGetnsec d)).mapM (dumpSection d)
      = some ((d.slots.filterMap Slot.secname).map (sectionText d)) := by
  have hlen : iniparserGetnsec d = (d.slots.filterMap Slot.secname).length := by
    rw [iniparserGetnsec, List.length_filterMap_eq_countP]
  have hsection : ∀ n ∈ List.range (iniparserGetnsec d), dumpSection d n
      = some (sectionText d
          ((d.slots.filterMap Slot.secname)[n]?.getD ⟨[], List.not_mem_nil⟩)) := by
    intro n hn
    rw [List.mem_range, hlen] at hn
    have hshort := (carriedSection h hcarried (List.getElem_mem hn)).1.short
    rw [dumpSection, iniparserGetsecname, List.getElem?_eq_getElem hn, Option.bind_eq_bind,
      Option.bind_some, if_pos]
    · rfl
    · rw [asciiLineSz]
      omega
  have hmapM : ∀ ns : List ℕ, (∀ n ∈ ns, n ∈ List.range (iniparserGetnsec d)) →
      ns.mapM (dumpSection d) = some (ns.map fun n =>
        sectionText d ((d.slots.filterMap Slot.secname)[n]?.getD ⟨[], List.not_mem_nil⟩)) := by
    intro ns hns
    induction ns with
    | nil => rfl
    | cons n ns ih =>
        rw [List.mapM_cons, hsection n (hns n List.mem_cons_self),
          ih fun n hn => hns n (List.mem_cons_of_mem _ hn)]
        rfl
  rw [hmapM _ fun n hn => hn, hlen]
  congr 1
  apply List.ext_getElem
  · rw [List.length_map, List.length_map, List.length_range]
  · intro n hn _
    rw [List.length_map, List.length_range] at hn
    rw [List.getElem_map, List.getElem_map, List.getElem_range, List.getElem?_eq_getElem hn]
    rfl

/-- The value that a key has after loading: a section has none, an entry without one has the
empty string. -/
def reloaded (d : Dictionary) (key : Str) : Option (Option Str) :=
  (d.dictionaryGet key).map fun v => if 58 ∈ key.val then written v else v

/-- What the dumped sections set is what is wanted of each key. -/
theorem reloaded_of_mem (h : d.Stands m)
    (hcarried : ∀ key v, d.dictionaryGet key = some v → Carried d key v) {sec : Str}
    (hsec : sec ∈ d.slots.filterMap Slot.secname) :
    ∀ c ∈ sectionSets d sec, reloaded d c.1 = some c.2 := by
  intro c hc
  rcases List.mem_cons.mp hc with rfl | hc
  · obtain ⟨hsome, hcolon⟩ := (mem_secnames h).mp hsec
    obtain ⟨v, hv⟩ := Option.isSome_iff_exists.mp hsome
    rw [reloaded, hv, Option.map_some, if_neg hcolon]
    rcases hcarried sec v hv with ⟨-, rfl⟩ | ⟨sec', k, hkey, -⟩
    · rfl
    · exact absurd (by rw [hkey]; simp) hcolon
  · obtain ⟨⟨key, v⟩, he, rfl⟩ := List.mem_map.mp hc
    obtain ⟨hv, k, hkey⟩ := (mem_entriesOf h).mp he
    rw [reloaded, hv, Option.map_some, if_pos (by rw [hkey]; simp)]

/-- They set every key. -/
theorem mem_sectionSets (h : d.Stands m)
    (hcarried : ∀ key v, d.dictionaryGet key = some v → Carried d key v) {key : Str}
    {v : Option Str} (hv : d.dictionaryGet key = some v) :
    ∃ sec ∈ d.slots.filterMap Slot.secname, ∃ c ∈ sectionSets d sec, c.1 = key := by
  rcases hcarried key v hv with ⟨hname, -⟩ | ⟨sec, k, hkey, hname, hthere, -⟩
  · refine ⟨key, (mem_secnames h).mpr ⟨?_, hname.no_colon⟩, _, List.mem_cons_self, rfl⟩
    rw [hv]
    rfl
  · refine ⟨sec, (mem_secnames h).mpr ⟨hthere, hname.no_colon⟩, (key, written v), ?_, rfl⟩
    exact List.mem_cons_of_mem _ (List.mem_map_of_mem ((mem_entriesOf h).mpr ⟨hv, k, hkey⟩))

/-- **A dumped dictionary loads again.**  For a dictionary made by any calls, with names and
values that a file can carry, `iniparser_dump_ini` writes within its buffers a file from
which `iniparser_load` makes a dictionary with the same keys; the sections have no value and
every entry has its own, the empty string where it had none. -/
theorem dump_load {size : ℕ} {cs : List Dictionary.Call}
    (hd : cs.foldlM Dictionary.call (Dictionary.dictionaryNew size) = some d)
    (hcarried : ∀ key v, d.dictionaryGet key = some v → Carried d key v) (hfront : front ≠ 92) :
    ∃ file d', iniparserDumpIni d = some file ∧
      iniparserLoad front file = some (some d') ∧
      ∀ key, d'.dictionaryGet key
        = (d.dictionaryGet key).map fun v => if 58 ∈ key.val then written v else v := by
  obtain ⟨d₀, hd₀, h⟩ := (Dictionary.dictionaryNew_stands size).calls cs
  rw [hd, Option.some.injEq] at hd₀
  subst hd₀
  have hnew := Dictionary.dictionaryNew_stands 0
  by_cases hnsec : iniparserGetnsec d < 1
  · -- without a section there is no key at all
    have hnone : d.slots.filterMap Slot.secname = [] := by
      rw [← List.length_eq_zero_iff, List.length_filterMap_eq_countP]
      exact Nat.lt_one_iff.mp hnsec
    have hget : ∀ key, d.dictionaryGet key = none := by
      intro key
      rw [Option.eq_none_iff_forall_ne_some]
      intro v hv
      obtain ⟨sec, hsec, -⟩ := mem_sectionSets h hcarried hv
      rw [hnone] at hsec
      cases hsec
    refine ⟨[], Dictionary.dictionaryNew 0, ?_, ?_, ?_⟩
    · rw [iniparserDumpIni, if_pos hnsec, Option.some.injEq, List.flatMap_eq_nil_iff]
      intro s hs
      cases hkey : s.key with
      | none => rfl
      | some key =>
          have hsome := (get_iff h).mpr ⟨s, hs, hkey, rfl⟩
          rw [hget] at hsome
          cases hsome
    · rw [iniparserLoad, loadLoop, if_pos rfl]
      rfl
    · intro key
      rw [hnew.get, hget]
      rfl
  · obtain ⟨s, hload, herrs, hs⟩ := load_sections (d := d) hfront
      (d.slots.filterMap Slot.secname) (fun sec hsec => carriedSection h hcarried hsec)
      (s := ⟨[], Dictionary.dictionaryNew 0, 0⟩) hnew rfl [10]
    refine ⟨(d.slots.filterMap Slot.secname).flatMap (sectionText d) ++ [10], s.dict, ?_, ?_, ?_⟩
    · rw [iniparserDumpIni, if_neg hnsec, mapM_dumpSection h hcarried, List.flatMap_def]
      rfl
    · rw [iniparserLoad, hload, load_empty hfront, loadLoop, if_pos rfl,
        if_pos herrs]
    · intro key
      show s.dict.dictionaryGet key = reloaded d key
      rw [hs.get, sets_apply (reloaded d)]
      · split_ifs with hmem
        · rfl
        · cases hv : d.dictionaryGet key with
          | none =>
              rw [reloaded, hv]
              rfl
          | some v =>
              obtain ⟨sec, hsec, c, hc, rfl⟩ := mem_sectionSets h hcarried hv
              exact absurd (List.mem_map_of_mem (List.mem_flatMap.mpr ⟨sec, hsec, hc⟩)) hmem
      · intro c hc
        obtain ⟨sec, hsec, hc⟩ := List.mem_flatMap.mp hc
        exact reloaded_of_mem h hcarried hsec c hc

/-- A section `net` with `port = 80`, loaded again. -/
theorem dump_load_net :
    ∃ d file d', [Dictionary.Call.set (cstr (ascii "net")) none,
        .set (cstr (ascii "net:port")) (some (cstr (ascii "80")))].foldlM Dictionary.call
          (Dictionary.dictionaryNew 0) = some d ∧
      iniparserDumpIni d = some file ∧ iniparserLoad 0 file = some (some d') ∧
      d'.dictionaryGet (cstr (ascii "net:port")) = some (some (cstr (ascii "80"))) := by
  obtain ⟨d, hd, h⟩ := (Dictionary.dictionaryNew_stands 0).calls
    [.set (cstr (ascii "net")) none, .set (cstr (ascii "net:port")) (some (cstr (ascii "80")))]
  have hsec : SectionName (cstr (ascii "net")).val :=
    ⟨⟨by decide, by decide, by decide, by decide⟩, by decide, by decide⟩
  have hkey : KeyName (ascii "port") :=
    ⟨⟨by decide, by decide, by decide, by decide⟩, by decide, by decide, by decide⟩
  have hcarried : ∀ key v, d.dictionaryGet key = some v → Carried d key v := by
    intro key v hv
    rw [h.get, List.foldl_cons, List.foldl_cons, List.foldl_nil, Dictionary.Call.apply,
      Dictionary.Call.apply] at hv
    by_cases hport : key = cstr (ascii "net:port")
    · rw [hport, Function.update_self, Option.some.injEq] at hv
      subst hv
      refine .inr ⟨cstr (ascii "net"), ascii "port", by rw [hport]; decide, hsec, ?_, hkey,
        .inr (by decide), by decide, by decide⟩
      rw [h.get]
      decide
    · rw [Function.update_of_ne hport] at hv
      by_cases hnet : key = cstr (ascii "net")
      · rw [hnet, Function.update_self, Option.some.injEq] at hv
        exact .inl ⟨by rw [hnet]; exact hsec, hv.symm⟩
      · rw [Function.update_of_ne hnet] at hv
        cases hv
  have hfront : (0 : UInt8) ≠ 92 := by decide
  obtain ⟨file, d', hfile, hload, hget⟩ := dump_load hd hcarried hfront
  refine ⟨d, file, d', hd, hfile, hload, ?_⟩
  rw [hget, h.get]
  decide

end RoundTrip

end Zevent.Ini
