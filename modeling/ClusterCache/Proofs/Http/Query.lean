import ClusterCache.Http.Exchange
import ClusterCache.Http.Query
import ClusterCache.Proofs.Text.Blank
import ClusterCache.Proofs.Text.Utf8
import Mathlib.Tactic.IntervalCases

/-!
# Keys in queries

Every text can be named as a key in a query: with all its bytes escaped nothing of it is taken for a
separator, and it is read back as it was.
-/

namespace ClusterCache.Http

open Text

/-- A byte as it is escaped. -/
def escapeByte (b : UInt8) : List Char :=
  ['%', Wire.hexDigit (b.toNat / 16), Wire.hexDigit (b.toNat % 16)]

/-- A text with all its bytes escaped. -/
def escape (s : String) : List Char := (utf8 s).flatMap escapeByte

/-- The query that names a key. -/
def keyQuery (key : String) : List Char := "key".toList ++ '=' :: escape key

/-! ## Escaped bytes -/

theorem utf8EncodeChar_hexDigit {n : Nat} (h : n < 16) :
    String.utf8EncodeChar (Wire.hexDigit n) = [UInt8.ofNat (Wire.hexDigit n).toNat] := by
  interval_cases n <;> rfl

theorem hexValue?_hexDigit {n : Nat} (h : n < 16) :
    Wire.hexValue? (Char.ofNat (UInt8.ofNat (Wire.hexDigit n).toNat).toNat) = some n := by
  interval_cases n <;> rfl

theorem percentDecode_escapeByte (b : UInt8) (rest : List UInt8) :
    percentDecode ((escapeByte b).flatMap String.utf8EncodeChar ++ rest) =
      b :: percentDecode rest := by
  have hb : b.toNat < 256 := b.toNat_lt
  have hhigh : b.toNat / 16 < 16 := by omega
  have hlow : b.toNat % 16 < 16 := by omega
  have hpercent : String.utf8EncodeChar '%' = [0x25] := rfl
  have hescaped : escapedByte? (UInt8.ofNat (Wire.hexDigit (b.toNat / 16)).toNat)
      (UInt8.ofNat (Wire.hexDigit (b.toNat % 16)).toNat) = some b := by
    rw [escapedByte?, hexValue?_hexDigit hhigh, hexValue?_hexDigit hlow]
    simp only [bind, Option.bind, pure, Nat.div_add_mod, UInt8.ofNat_toNat]
  rw [escapeByte, List.flatMap_cons, List.flatMap_cons, List.flatMap_cons, List.flatMap_nil,
    hpercent, utf8EncodeChar_hexDigit hhigh, utf8EncodeChar_hexDigit hlow]
  simp only [List.cons_append, List.nil_append, percentDecode, hescaped]

theorem percentDecode_escapeBytes (bs : List UInt8) :
    percentDecode ((bs.flatMap escapeByte).flatMap String.utf8EncodeChar) = bs := by
  induction bs with
  | nil => rfl
  | cons b bs ih =>
      rw [List.flatMap_cons, List.flatMap_append, percentDecode_escapeByte, ih]

/-- An escaped text is read back. -/
theorem formText_escape (s : String) : formText (escape s) = s := by
  rw [formText, utf8, String.toList_ofList, escape, percentDecode_escapeBytes, decodeLenient,
    decodeUtf8_utf8, List.map_map]
  simp [Function.comp_def]

/-! ## Separators -/

theorem hexDigit_mem {n : Nat} (h : n < 16) : Wire.hexDigit n ∈ "0123456789abcdef".toList := by
  interval_cases n <;> decide

theorem mem_of_mem_escape {s : String} {c : Char} (h : c ∈ escape s) :
    c ∈ "%0123456789abcdef".toList := by
  obtain ⟨b, -, hc⟩ := List.mem_flatMap.mp h
  have hb : b.toNat < 256 := b.toNat_lt
  rw [escapeByte, List.mem_cons, List.mem_cons, List.mem_singleton] at hc
  have hdigit : ∀ n < 16, Wire.hexDigit n ∈ "%0123456789abcdef".toList :=
    fun n hn => List.mem_cons_of_mem '%' (hexDigit_mem hn)
  obtain rfl | rfl | rfl := hc
  · decide
  · exact hdigit _ (by omega)
  · exact hdigit _ (by omega)

/-- A character that is neither escaped nor in the name of the key is not in the query. -/
theorem notMem_keyQuery (key : String) {c : Char} (h : c ∉ "key=%0123456789abcdef".toList) :
    c ∉ keyQuery key := by
  intro hc
  have hsplit : "key=%0123456789abcdef".toList =
      "key".toList ++ '=' :: "%0123456789abcdef".toList := by decide
  rw [hsplit] at h
  rw [keyQuery, List.mem_append, List.mem_cons] at hc
  rw [List.mem_append, List.mem_cons, not_or, not_or] at h
  obtain hc | hc | hc := hc
  · exact h.1 hc
  · exact h.2.1 hc
  · exact h.2.2 (mem_of_mem_escape hc)

theorem queryKey?_keyQuery (key : String) : queryKey? (keyQuery key) = some key := by
  have hone : split '&' (keyQuery key) = [keyQuery key] := by
    rw [split_eq_splitOn]
    exact List.splitOn_eq_singleton (notMem_keyQuery key (by decide))
  have hcut : splitFirst? '=' (keyQuery key) = some ("key".toList, escape key) :=
    splitFirst?_append (by decide) _
  have hname : formText "key".toList = "key" := by decide
  have hpairs : formPairs (keyQuery key) = [("key", key)] := by
    have hnonempty : [keyQuery key].filter (!·.isEmpty) = [keyQuery key] := rfl
    rw [formPairs, hone, hnonempty, List.map_singleton, hcut]
    simp only [hname, formText_escape]
  rw [queryKey?, hpairs]
  rfl

/-- A target without a fragment is cut at its first question mark. -/
theorem cut_target {path query : List Char} (hpath : '?' ∉ path)
    (hfragment : '#' ∉ path ++ '?' :: query) :
    pathOf (String.ofList (path ++ '?' :: query)) = path ∧
      queryOf (String.ofList (path ++ '?' :: query)) = query := by
  have hwhole : (path ++ '?' :: query).takeWhile (· ≠ '#') = path ++ '?' :: query :=
    List.takeWhile_eq_self_iff.mpr fun c hc =>
      decide_eq_true fun heq => hfragment (heq ▸ hc)
  have hbefore : ∀ c ∈ path, decide (c ≠ '?') = true :=
    fun c hc => decide_eq_true fun heq => hpath (heq ▸ hc)
  rw [pathOf, queryOf, String.toList_ofList, hwhole, List.takeWhile_append_of_pos hbefore,
    List.dropWhile_append_of_pos hbefore]
  simp

end ClusterCache.Http
