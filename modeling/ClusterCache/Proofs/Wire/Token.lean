import ClusterCache.Wire.Record
import Mathlib.Tactic.FinCases
import Mathlib.Tactic.IntervalCases

/-!
# Reading what was written, token by token

What is written for a text, a number, a flag or nothing is read back as one token, and what is
written for a record as the tokens of its members between braces.
-/

namespace ClusterCache.Wire

/-! ## Texts -/

/-- The piece of a string that is written for a character. -/
def pieceOf (c : Char) : Piece :=
  if c < ' ' ∧ c ∉ ['\x08', '\x0c', '\n', '\r', '\t'] then .unit c.toNat else .char c

theorem unit?_hexDigits {n : Nat} (h : n < 32) :
    unit? (some '0') (some '0') (some (hexDigit (n / 16))) (some (hexDigit (n % 16))) = some n := by
  interval_cases n <;> rfl

theorem pieces?_plain {c : Char} (hquote : c ≠ '"') (hslash : c ≠ '\\') (hblank : ¬ c < ' ')
    (rest : List Symbol) :
    pieces? (some c :: rest) = (pieces? rest).map fun (ps, rest) => (.char c :: ps, rest) := by
  rw [pieces?]
  · simp [hslash, hblank]
  · simpa using hquote
  · intro a b d e r h
    simp_all
  · intro e r h
    simp_all

theorem pieces?_escape {e c : Char} (hu : e ≠ 'u') (he : escaped? e = some c)
    (rest : List Symbol) :
    pieces? (some '\\' :: some e :: rest) =
      (pieces? rest).map fun (ps, rest) => (.char c :: ps, rest) := by
  rw [pieces?]
  · rw [he]
    cases pieces? rest <;> rfl
  · intro a b d e' r h
    simp_all

theorem pieces?_unit {n : Nat} (h : n < 32) (rest : List Symbol) :
    pieces? (some '\\' :: some 'u' :: some '0' :: some '0' :: some (hexDigit (n / 16)) ::
        some (hexDigit (n % 16)) :: rest) =
      (pieces? rest).map fun (ps, rest) => (.unit n :: ps, rest) := by
  rw [pieces?, unit?_hexDigits h]
  cases pieces? rest <;> rfl

theorem pieces?_writeChar (c : Char) (rest : List Symbol) :
    pieces? ((writeChar c).map some ++ rest) =
      (pieces? rest).map fun (ps, rest) => (pieceOf c :: ps, rest) := by
  rw [writeChar]
  split_ifs with h1 h2 h3 h4 h5 h6 h7 h8
  · subst h1
    exact pieces?_escape (by decide) rfl rest
  · subst h2
    exact pieces?_escape (by decide) rfl rest
  · subst h3
    exact pieces?_escape (by decide) rfl rest
  · subst h4
    exact pieces?_escape (by decide) rfl rest
  · subst h5
    exact pieces?_escape (by decide) rfl rest
  · subst h6
    exact pieces?_escape (by decide) rfl rest
  · subst h7
    exact pieces?_escape (by decide) rfl rest
  · have hpiece : pieceOf c = .unit c.toNat := by
      rw [pieceOf, if_pos ⟨h8, by simp [h3, h4, h5, h6, h7]⟩]
    rw [hpiece]
    exact pieces?_unit h8 rest
  · have hpiece : pieceOf c = .char c := by
      rw [pieceOf, if_neg fun h => h8 h.1]
    rw [hpiece]
    exact pieces?_plain h1 h2 h8 rest

theorem pieces?_writeChars (cs : List Char) (rest : List Symbol) :
    pieces? ((cs.flatMap writeChar).map some ++ some '"' :: rest) =
      some (cs.map pieceOf, rest) := by
  induction cs with
  | nil => rfl
  | cons c cs ih =>
      rw [List.flatMap_cons, List.map_append, List.append_assoc, pieces?_writeChar, ih]
      rfl

theorem characters?_unit {n : Nat} (h : n < 0xd800) (ps : List Piece) :
    characters? (.unit n :: ps) = (characters? ps).map (Char.ofNat n :: ·) := by
  cases ps with
  | nil => simp [characters?, Nat.not_le.mpr h]
  | cons p ps =>
      cases p with
      | unit m =>
          rw [characters?, if_neg (by omega), if_neg (by omega)]
      | char c => simp [characters?, Nat.not_le.mpr h]
      | noise => simp [characters?, Nat.not_le.mpr h]

theorem characters?_pieceOf (cs : List Char) : characters? (cs.map pieceOf) = some cs := by
  induction cs with
  | nil => rfl
  | cons c cs ih =>
      rw [List.map_cons, pieceOf]
      split_ifs with h
      · have hlt : c.toNat < 32 := h.1
        rw [characters?_unit (by omega), ih, Option.map_some, Char.ofNat_toNat]
      · rw [characters?, ih, Option.map_some]

theorem token_writeText (s : String) (rest : List Symbol) :
    token ((writeText s).map some ++ rest) = (.string (some s), rest) := by
  have hbody : (writeText s).map some ++ rest =
      some '"' :: ((s.toList.flatMap writeChar).map some ++ some '"' :: rest) := by
    simp [writeText]
  rw [hbody, token]
  simp [pieces?_writeChars, characters?_pieceOf]

/-! ## Numbers -/

theorem head_toDigits_ne {n : Nat} (h : n ≠ 0) : (Nat.toDigits 10 n).head? ≠ some '0' := by
  induction n using Nat.strongRecOn with
  | ind n ih =>
      by_cases hlt : n < 10
      · interval_cases n <;> first | exact absurd rfl h | decide
      · rw [Nat.toDigits_of_base_le (by decide) (by omega),
          List.head?_append_of_ne_nil _ Nat.toDigits_ne_nil]
        exact ih (n / 10) (by omega) (by omega)

/-- A text that goes on after a value with a comma or the end of the record. -/
def Delimited (rest : List Symbol) : Prop :=
  ∃ c after, rest = some c :: after ∧ (c = ',' ∨ c = '}')

theorem digits_append {ds : List Char} (hds : ∀ d ∈ ds, d.isDigit = true) {rest : List Symbol}
    (hrest : Delimited rest) : digits (ds.map some ++ rest) = (ds, rest) := by
  obtain ⟨c, after, rfl, hc⟩ := hrest
  have hnot : isDigit (some c) = false := by
    rcases hc with rfl | rfl <;> rfl
  have hall : ∀ d ∈ ds.map some, isDigit d = true := by
    simpa [isDigit] using hds
  rw [digits, List.takeWhile_append_of_pos hall, List.dropWhile_append_of_pos hall,
    List.takeWhile_cons_of_neg (by simp [hnot]), List.dropWhile_cons_of_neg (by simp [hnot])]
  simp [List.filterMap_map]

theorem isDigit_cases {d : Char} (h : d.isDigit = true) :
    d ∈ ['0', '1', '2', '3', '4', '5', '6', '7', '8', '9'] := by
  have hrange : 48 ≤ d.toNat ∧ d.toNat ≤ 57 := by
    simpa [Char.isDigit, UInt32.le_iff_toNat_le] using h
  rw [← Char.ofNat_toNat d]
  obtain ⟨hlow, hhigh⟩ := hrange
  interval_cases d.toNat <;> decide

theorem numeral_toDigits (n : UInt64) :
    Parts.numeral ⟨false, Nat.toDigits 10 n.toNat, [], none⟩ = .word n := by
  have hvalue : digitsValue (Nat.toDigits 10 n.toNat) = n.toNat :=
    Nat.ofDigitChars_ten_toDigits
  simp [Parts.numeral, hvalue, n.toNat_lt]

/-- A digit starts a number. -/
theorem token_digit {d : Char} (hd : d.isDigit = true) (cs : List Symbol) :
    token (some d :: cs) = match number? (some d :: cs) with
      | some (n, rest) => (.number n, rest)
      | none => (.broken, []) := by
  have hcases := isDigit_cases hd
  fin_cases hcases <;> rfl

theorem number?_digit {d : Char} (hd : d.isDigit = true) (cs : List Symbol) :
    number? (some d :: cs) =
      let (whole, cs) := digits (some d :: cs)
      if whole.isEmpty || (whole.head? = some '0' && 1 < whole.length) then none
      else do
        let (fraction, cs) ← fraction? cs
        let (exponent, cs) ← exponent? cs
        return (Parts.numeral ⟨false, whole, fraction, exponent⟩, cs) := by
  have hcases := isDigit_cases hd
  fin_cases hcases <;> rfl

theorem fraction?_of_delimited {rest : List Symbol} (h : Delimited rest) :
    fraction? rest = some ([], rest) := by
  obtain ⟨c, after, rfl, rfl | rfl⟩ := h <;> rfl

theorem exponent?_of_delimited {rest : List Symbol} (h : Delimited rest) :
    exponent? rest = some (none, rest) := by
  obtain ⟨c, after, rfl, rfl | rfl⟩ := h <;> rfl

theorem number?_toDigits (n : UInt64) {rest : List Symbol} (hrest : Delimited rest) :
    number? ((Nat.toDigits 10 n.toNat).map some ++ rest) = some (.word n, rest) := by
  have hdigits : ∀ d ∈ Nat.toDigits 10 n.toNat, d.isDigit = true := fun d hd =>
    Nat.isDigit_of_mem_toDigits (by decide) (Nat.le_refl 10) hd
  have hread := digits_append hdigits hrest
  have hleading : ((Nat.toDigits 10 n.toNat).head? = some '0' &&
      decide (1 < (Nat.toDigits 10 n.toNat).length)) = false := by
    by_cases hzero : n.toNat = 0
    · rw [hzero]
      decide
    · simp [head_toDigits_ne hzero]
  have hnumeral := numeral_toDigits n
  cases hds : Nat.toDigits 10 n.toNat with
  | nil => exact absurd hds Nat.toDigits_ne_nil
  | cons d ds =>
      rw [hds] at hdigits hread hleading hnumeral
      rw [List.map_cons, List.cons_append, number?_digit (hdigits d List.mem_cons_self)]
      rw [List.map_cons, List.cons_append] at hread
      simp only [hread, hleading, List.isEmpty_cons, Bool.or_self, Bool.false_eq_true, if_false,
        fraction?_of_delimited hrest, exponent?_of_delimited hrest, hnumeral, Option.bind_eq_bind,
        Option.bind_some, Option.pure_def]

theorem token_writeWord (n : UInt64) {rest : List Symbol} (hrest : Delimited rest) :
    token ((Nat.repr n.toNat).toList.map some ++ rest) = (.number (.word n), rest) := by
  rw [Nat.repr_eq_ofList_toDigits, String.toList_ofList]
  have hnumber := number?_toDigits n hrest
  cases hds : Nat.toDigits 10 n.toNat with
  | nil => exact absurd hds Nat.toDigits_ne_nil
  | cons d ds =>
      have hd : d.isDigit = true :=
        Nat.isDigit_of_mem_toDigits (by decide) (Nat.le_refl 10) (hds ▸ List.mem_cons_self)
      rw [hds, List.map_cons, List.cons_append] at hnumber
      rw [List.map_cons, List.cons_append, token_digit hd, hnumber]

/-! ## Values -/

/-- The token that is written for a datum. -/
def Datum.token : Datum → Token
  | .text s => .string (some s)
  | .absent => .null
  | .word n => .number (.word n)
  | .flag b => .bool b

theorem token_writeDatum (d : Datum) {rest : List Symbol} (hrest : Delimited rest) :
    token ((writeDatum d).map some ++ rest) = (d.token, rest) := by
  cases d with
  | text s => exact token_writeText s rest
  | absent => rfl
  | word n => exact token_writeWord n hrest
  | flag b => cases b <;> rfl

/-! ## Rows of tokens -/

/-- A text starts with these tokens and goes on with the rest. -/
structure Scans (cs : List Symbol) (ts : List Token) (rest : List Symbol) : Prop where
  tokens : ∀ fuel, tokensUpTo (fuel + ts.length) cs = ts ++ tokensUpTo fuel rest
  length : ts.length + rest.length ≤ cs.length

theorem Scans.trans {cs mid rest : List Symbol} {ts us : List Token} (h : Scans cs ts mid)
    (h' : Scans mid us rest) : Scans cs (ts ++ us) rest := by
  constructor
  · intro fuel
    rw [List.length_append, Nat.add_comm ts.length, ← Nat.add_assoc, h.tokens, h'.tokens,
      List.append_assoc]
  · have hfirst := h.length
    have hsecond := h'.length
    rw [List.length_append]
    omega

theorem Scans.of_token {c : Symbol} {cs rest : List Symbol} {t : Token} (hspace : isSpace c = false)
    (ht : token (c :: cs) = (t, rest)) (hlength : rest.length ≤ cs.length) :
    Scans (c :: cs) [t] rest := by
  constructor
  · intro fuel
    rw [List.length_singleton, tokensUpTo, List.dropWhile_cons_of_neg (by simp [hspace])]
    simp only [ht]
    rfl
  · rw [List.length_singleton, List.length_cons]
    omega

theorem tokens_of_scans {cs : List Symbol} {ts : List Token} (h : Scans cs ts []) :
    tokens cs = ts := by
  have hlength := h.length
  rw [List.length_nil, Nat.add_zero] at hlength
  obtain ⟨fuel, hfuel⟩ := Nat.exists_eq_add_of_le' hlength
  have hend : tokensUpTo fuel [] = [] := by cases fuel <;> rfl
  rw [tokens, hfuel, h.tokens, hend, List.append_nil]

/-! ## Records -/

theorem scans_writeText (s : String) (rest : List Symbol) :
    Scans ((writeText s).map some ++ rest) [.string (some s)] rest := by
  refine Scans.of_token (c := some '"') rfl (token_writeText s rest) ?_
  simp
  omega

/-- A value is written without a blank in front. -/
theorem exists_writeDatum (d : Datum) :
    ∃ c cs, writeDatum d = c :: cs ∧ isSpace (some c) = false := by
  cases d with
  | text s => exact ⟨'"', _, rfl, rfl⟩
  | absent => exact ⟨'n', _, rfl, rfl⟩
  | flag b => cases b <;> exact ⟨_, _, rfl, rfl⟩
  | word n =>
      cases hds : Nat.toDigits 10 n.toNat with
      | nil => exact absurd hds Nat.toDigits_ne_nil
      | cons c cs =>
          have hc : c.isDigit = true :=
            Nat.isDigit_of_mem_toDigits (by decide) (Nat.le_refl 10) (hds ▸ List.mem_cons_self)
          have hcases := isDigit_cases hc
          refine ⟨c, cs, ?_, ?_⟩
          · rw [writeDatum, Nat.repr_eq_ofList_toDigits, String.toList_ofList, hds]
          · fin_cases hcases <;> rfl

theorem scans_writeDatum (d : Datum) {rest : List Symbol} (hrest : Delimited rest) :
    Scans ((writeDatum d).map some ++ rest) [d.token] rest := by
  have htoken := token_writeDatum d hrest
  obtain ⟨c, cs, hwritten, hspace⟩ := exists_writeDatum d
  rw [hwritten, List.map_cons, List.cons_append] at htoken ⊢
  exact Scans.of_token hspace htoken (by simp)

/-- The tokens of a member of a record. -/
def memberTokens (m : String × Datum) : List Token := [.string (some m.1), .colon, m.2.token]

theorem scans_writeMember (m : String × Datum) {rest : List Symbol} (hrest : Delimited rest) :
    Scans ((writeMember m).map some ++ rest) (memberTokens m) rest := by
  have hcolon : Scans (some ':' :: ((writeDatum m.2).map some ++ rest)) [.colon]
      ((writeDatum m.2).map some ++ rest) := Scans.of_token rfl rfl (Nat.le_refl _)
  have hall := ((scans_writeText m.1 _).trans hcolon).trans (scans_writeDatum m.2 hrest)
  simpa [writeMember, memberTokens] using hall

/-- The tokens of members that follow others. -/
def laterTokens (ms : List (String × Datum)) : List Token :=
  ms.flatMap fun m => .comma :: memberTokens m

def membersTokens : List (String × Datum) → List Token
  | [] => []
  | m :: ms => memberTokens m ++ laterTokens ms

theorem writeMembers_cons (m : String × Datum) (ms : List (String × Datum)) :
    writeMembers (m :: ms) = writeMember m ++ ms.flatMap fun m => ',' :: writeMember m := by
  induction ms generalizing m with
  | nil => simp [writeMembers]
  | cons next ms ih => rw [writeMembers, ih, List.flatMap_cons, List.cons_append]; simp

theorem delimited_later (ms : List (String × Datum)) (rest : List Symbol) :
    Delimited ((ms.flatMap fun m => ',' :: writeMember m).map some ++ some '}' :: rest) := by
  cases ms with
  | nil => exact ⟨'}', rest, rfl, Or.inr rfl⟩
  | cons m ms => exact ⟨',', _, rfl, Or.inl rfl⟩

theorem scans_later (ms : List (String × Datum)) (rest : List Symbol) :
    Scans ((ms.flatMap fun m => ',' :: writeMember m).map some ++ some '}' :: rest)
      (laterTokens ms) (some '}' :: rest) := by
  induction ms with
  | nil => exact ⟨fun fuel => rfl, Nat.le_of_eq (Nat.zero_add _)⟩
  | cons m ms ih =>
      have hcomma : ∀ cs : List Symbol, Scans (some ',' :: cs) [.comma] cs := fun cs =>
        Scans.of_token rfl rfl (Nat.le_refl _)
      have hall := ((hcomma _).trans (scans_writeMember m (delimited_later ms rest))).trans ih
      simpa [laterTokens] using hall

/-- A record is read back as its members between braces. -/
theorem scans_writeObject (ms : List (String × Datum)) (rest : List Symbol) :
    Scans ((writeObject ms).map some ++ rest)
      (.openObject :: (membersTokens ms ++ [.closeObject])) rest := by
  have hopen : ∀ cs : List Symbol, Scans (some '{' :: cs) [.openObject] cs := fun cs =>
    Scans.of_token rfl rfl (Nat.le_refl _)
  have hclose : Scans (some '}' :: rest) [.closeObject] rest :=
    Scans.of_token rfl rfl (Nat.le_refl _)
  cases ms with
  | nil => exact (hopen _).trans hclose
  | cons m ms =>
      have hall := (((hopen _).trans (scans_writeMember m (delimited_later ms rest))).trans
        (scans_later ms rest)).trans hclose
      simpa [writeObject, writeMembers_cons, membersTokens] using hall

end ClusterCache.Wire
