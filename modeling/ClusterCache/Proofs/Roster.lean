import ClusterCache.Proofs.Text.Blank
import ClusterCache.Roster

/-!
# Reading and writing membership lists

A text that is made of two lists with a comma between them describes the members of the one and then
those of the other.  The members that are read from any text have parts that neither begin nor end
with a blank and cannot be taken for the marks of a list, and every list of such members is read back
from what is written for it, however its parts are spaced.
-/

namespace ClusterCache.Member

/-- A member that a list can describe: its parts are trimmed, it has an id without commas and equals
signs, and there is no comma in its address. -/
@[mk_iff]
structure Listable (m : Member) : Prop where
  id_ne : m.id ≠ ""
  id_comma : ',' ∉ m.id.toList
  id_sign : '=' ∉ m.id.toList
  id_trimmed : Text.IsTrimmed m.id.toList
  address_comma : ',' ∉ m.address.toList
  address_trimmed : Text.IsTrimmed m.address.toList

instance (m : Member) : Decidable m.Listable := decidable_of_iff' _ m.listable_iff

/-- What stands around the parts of a pair. -/
structure Spacing where
  before : String := ""
  beforeSign : String := ""
  afterSign : String := ""
  after : String := ""

/-- Nothing but blanks stands around the parts. -/
@[mk_iff]
structure Spacing.IsBlank (s : Spacing) : Prop where
  before : Text.AllBlank s.before.toList
  beforeSign : Text.AllBlank s.beforeSign.toList
  afterSign : Text.AllBlank s.afterSign.toList
  after : Text.AllBlank s.after.toList

instance (s : Spacing) : Decidable s.IsBlank := decidable_of_iff' _ s.isBlank_iff

/-- A member as a pair of a list. -/
def write (s : Spacing) (m : Member) : String :=
  s.before ++ m.id ++ s.beforeSign ++ "=" ++ s.afterSign ++ m.address ++ s.after

/-- Members as a list, each with its own spacing. -/
def writeList (pairs : List (Spacing × Member)) : String :=
  ",".intercalate (pairs.map fun p => p.2.write p.1)

/-! ## What is read -/

theorem parseList_append_comma (a b : String) :
    parseList (a ++ "," ++ b) = parseList a ++ parseList b := by
  have hcomma : (a ++ "," ++ b).toList = a.toList ++ ',' :: b.toList := by simp
  rw [parseList, hcomma, Text.split_append_separator, List.filterMap_append, parseList, parseList]

/-- The parts of a pair, with and without an equals sign. -/
theorem ofPair?_eq_some {pair : List Char} {m : Member} (h : ofPair? pair = some m) :
    m.id ≠ "" ∧ (m.id.toList = Text.trim pair ∧ m.address.toList = Text.trim pair ∧
        '=' ∉ Text.trim pair ∨
      ∃ before after, Text.trim pair = before ++ '=' :: after ∧ '=' ∉ before ∧
        m.id.toList = Text.trim before ∧ m.address.toList = Text.trim after) := by
  have hnonempty : ∀ id : List Char, ¬ id.isEmpty = true → String.ofList id ≠ "" := by
    intro id hid hempty
    exact hid (by simpa using congrArg String.toList hempty)
  rw [ofPair?] at h
  cases hfirst : Text.splitFirst? '=' (Text.trim pair) with
  | none =>
      simp only [hfirst] at h
      split_ifs at h with hid
      obtain rfl := Option.some.inj h
      exact ⟨hnonempty _ hid, Or.inl ⟨String.toList_ofList, String.toList_ofList,
        Text.splitFirst?_eq_none_iff.mp hfirst⟩⟩
  | some parts =>
      obtain ⟨before, after⟩ := parts
      simp only [hfirst] at h
      split_ifs at h with hid
      obtain rfl := Option.some.inj h
      obtain ⟨heq, hbefore⟩ := Text.splitFirst?_eq_some_iff.mp hfirst
      exact ⟨hnonempty _ hid, Or.inr ⟨before, after, heq, hbefore, String.toList_ofList,
        String.toList_ofList⟩⟩

theorem listable_of_ofPair? {pair : List Char} {m : Member} (hcomma : ',' ∉ pair)
    (h : ofPair? pair = some m) : m.Listable := by
  have htrim : ',' ∉ Text.trim pair := fun hmem => hcomma (Text.mem_of_mem_trim hmem)
  obtain ⟨hid, ⟨heq, haddress, hsign⟩ | ⟨before, after, hpair, hsign, heq, haddress⟩⟩ :=
    ofPair?_eq_some h
  · have htrimmed := Text.isTrimmed_trim pair
    rw [← heq] at hsign
    refine ⟨hid, ?_, hsign, ?_, ?_, ?_⟩
    · rwa [heq]
    · rwa [heq]
    · rwa [haddress]
    · rwa [haddress]
  · rw [hpair, List.mem_append, List.mem_cons, not_or, not_or] at htrim
    refine ⟨hid, ?_, ?_, ?_, ?_, ?_⟩
    · exact fun hmem => htrim.1 (Text.mem_of_mem_trim (heq ▸ hmem))
    · exact fun hmem => hsign (Text.mem_of_mem_trim (heq ▸ hmem))
    · rw [heq]
      exact Text.isTrimmed_trim before
    · exact fun hmem => htrim.2.2 (Text.mem_of_mem_trim (haddress ▸ hmem))
    · rw [haddress]
      exact Text.isTrimmed_trim after

theorem listable_of_mem_parseList {text : String} {m : Member} (h : m ∈ parseList text) :
    m.Listable := by
  obtain ⟨pair, hpair, hm⟩ := List.mem_filterMap.mp h
  exact listable_of_ofPair? (Text.notMem_of_mem_split hpair) hm

/-! ## What is written -/

variable {s : Spacing} {m : Member}

theorem ofPair?_write (hs : s.IsBlank) (hm : m.Listable) : ofPair? (m.write s).toList = some m := by
  obtain ⟨c, cs, hid⟩ : ∃ c cs, m.id.toList = c :: cs :=
    List.exists_cons_of_ne_nil fun hnil => hm.id_ne (by simpa using hnil)
  have hc : Text.isBlank c = false := hm.id_trimmed.1 c (by rw [hid]; rfl)
  have hwritten : (m.write s).toList = s.before.toList ++ c :: ((cs ++ s.beforeSign.toList) ++
      '=' :: (s.afterSign.toList ++ m.address.toList ++ s.after.toList)) := by
    simp [write, hid]
  -- The equals sign is no blank, so that the blanks at the end are those of the address.
  have htrim : Text.trim (m.write s).toList = (m.id.toList ++ s.beforeSign.toList) ++
      '=' :: Text.trimEnd (s.afterSign.toList ++ m.address.toList ++ s.after.toList) := by
    rw [hwritten, Text.trim_append_cons hs.before hc,
      Text.trimEnd_append_cons (by decide) (cs ++ s.beforeSign.toList), hid]
    simp
  have hsign : '=' ∉ m.id.toList ++ s.beforeSign.toList := by
    rw [List.mem_append, not_or]
    exact ⟨hm.id_sign, fun hmem => absurd (hs.beforeSign _ hmem) (by decide)⟩
  have hidTrim : Text.trim (m.id.toList ++ s.beforeSign.toList) = m.id.toList :=
    Text.trim_padded Text.allBlank_nil hs.beforeSign hm.id_trimmed
  have haddressTrim := Text.trim_padded hs.afterSign hs.after hm.address_trimmed
  rw [← Text.trim_trimEnd] at haddressTrim
  simp only [ofPair?, htrim, Text.splitFirst?_append hsign, hidTrim, haddressTrim,
    String.ofList_toList]
  rw [if_neg (by simp [hid])]

theorem comma_notMem_write (hs : s.IsBlank) (hm : m.Listable) : ',' ∉ (m.write s).toList := by
  have hblank : ∀ cs : List Char, Text.AllBlank cs → ',' ∉ cs := fun cs hcs hmem =>
    absurd (hcs _ hmem) (by decide)
  simp [write, hblank _ hs.before, hblank _ hs.beforeSign, hblank _ hs.afterSign, hblank _ hs.after,
    hm.id_comma, hm.address_comma]

theorem parseList_writeList {pairs : List (Spacing × Member)}
    (hpairs : ∀ p ∈ pairs, p.1.IsBlank ∧ p.2.Listable) :
    parseList (writeList pairs) = pairs.map (·.2) := by
  rcases eq_or_ne pairs [] with rfl | hne
  · rw [writeList, List.map_nil, String.intercalate_nil]
    rfl
  · have hpieces : ∀ piece ∈ (pairs.map fun p => p.2.write p.1).map String.toList,
        ',' ∉ piece := by
      simp only [List.mem_map, forall_exists_index, and_imp, forall_apply_eq_imp_iff₂]
      exact fun p hp => comma_notMem_write (hpairs p hp).1 (hpairs p hp).2
    have hread : ∀ p ∈ pairs,
        (ofPair? ∘ String.toList ∘ fun p : Spacing × Member => p.2.write p.1) p = some p.2 := by
      intro p hp
      rw [Function.comp_apply, Function.comp_apply, ofPair?_write (hpairs p hp).1 (hpairs p hp).2]
    have hcomma : ",".toList = [','] := rfl
    rw [parseList, writeList, String.toList_intercalate, hcomma, Text.split_eq_splitOn,
      List.splitOn_intercalate ',' hpieces (by simpa using hne), List.map_map,
      List.filterMap_map, List.filterMap_congr hread]
    exact congrFun List.filterMap_eq_map pairs

/-- Membership lists are read piece by piece, what is read from any text can be written, and what is
written is read back, whatever blanks stand around its parts. -/
theorem parseList_laws :
    (∀ a b : String, parseList (a ++ "," ++ b) = parseList a ++ parseList b) ∧
      (∀ text : String, ∀ m ∈ parseList text, m.Listable) ∧
      ∀ pairs : List (Spacing × Member), (∀ p ∈ pairs, p.1.IsBlank ∧ p.2.Listable) →
        parseList (writeList pairs) = pairs.map (·.2) :=
  ⟨parseList_append_comma, fun _ _ => listable_of_mem_parseList, fun _ => parseList_writeList⟩

/-- A member with blanks of many kinds around its parts, and one without an address. -/
def spacedPairs : List (Spacing × Member) :=
  [({ before := " ", beforeSign := "\t", afterSign := "\u3000", after := "\n" },
      ⟨"node 1", "h:1/?a=b"⟩),
    ({ afterSign := "\u00a0" }, ⟨"é", ""⟩)]

theorem parseList_laws_of_spaced :
    parseList " node 1\t=\u3000h:1/?a=b\n,é=\u00a0" = [⟨"node 1", "h:1/?a=b"⟩, ⟨"é", ""⟩] := by
  obtain ⟨_, _, hback⟩ := parseList_laws
  exact hback spacedPairs (by decide)

end ClusterCache.Member
