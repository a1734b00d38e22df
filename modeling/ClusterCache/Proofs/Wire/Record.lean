import ClusterCache.Proofs.Wire.Token
import Mathlib.Data.List.Nodup

/-!
# Reading the record that was written

The members of a record are read one after the other, each into the place of its field, and what
was left out because it was absent is filled in as absent.
-/

namespace ClusterCache.Wire

/-- Data that a field can hold, so that it is read back from what is written for it. -/
inductive Field.Holds : Field → Datum → Prop where
  | text {f : Field} (s : String) (hkind : f.kind = .text) : Holds f (.text s)
  | optionalText {f : Field} (s : String) (hkind : f.kind = .optionalText) : Holds f (.text s)
  | absent {f : Field} (hleft : f.left? = some .absent) : Holds f .absent
  | word {f : Field} (n : UInt64) (hkind : f.kind = .word) : Holds f (.word n)
  | flag {f : Field} (b : Bool) (hkind : f.kind = .flag) : Holds f (.flag b)

theorem Field.Holds.readDatum {f : Field} {d : Datum} (h : f.Holds d) (hd : d ≠ .absent)
    (rest : List Token) : readDatum f.kind (d.token :: rest) = .ok (d, rest) := by
  cases h with
  | absent hleft => exact absurd rfl hd
  | text s hkind => rw [hkind]; rfl
  | optionalText s hkind => rw [hkind]; rfl
  | word n hkind => rw [hkind]; rfl
  | flag b hkind => rw [hkind]; rfl

/-- What reading finds of a datum: nothing if it is absent. -/
def Datum.found? (d : Datum) : Option Datum := if d = .absent then none else some d

theorem members_cons (f : Field) (fs : List Field) (d : Datum) (ds : List Datum) :
    members (f :: fs) (d :: ds) =
      if d = .absent then members fs ds else (f.name, d) :: members fs ds := by
  by_cases hd : d = .absent <;> simp [members, hd]

theorem fill_found {fs : List Field} {ds : List Datum} (h : List.Forall₂ Field.Holds fs ds) :
    fill fs (ds.map Datum.found?) = .ok ds := by
  induction h with
  | nil => rfl
  | @cons f d fs ds hd hrest ih =>
      rw [List.map_cons, fill, List.tail_cons, ih]
      by_cases habsent : d = .absent
      · subst habsent
        cases hd with
        | absent hleft =>
            simp [Datum.found?, hleft]
            rfl
      · simp [Datum.found?, habsent]
        rfl

theorem findIdx?_name {pre post : List Field} {f : Field}
    (hnames : ((pre ++ f :: post).map (·.name)).Nodup) :
    (pre ++ f :: post).findIdx? (·.name = f.name) = some pre.length := by
  have hpre : pre.findIdx? (·.name = f.name) = none := by
    rw [List.findIdx?_eq_none_iff]
    intro g hg
    rw [List.map_append, List.nodup_append] at hnames
    simpa using hnames.2.2 g.name (List.mem_map_of_mem hg) f.name (by simp)
  rw [List.findIdx?_append, hpre, List.findIdx?_cons]
  simp

/-- One more member is read into the place of its field. -/
theorem readMembers_member {fields : List Field} {f : Field} {d : Datum} {i : Nat}
    {found : List (Option Datum)} (hfind : fields.findIdx? (·.name = f.name) = some i)
    (hfield : fields[i]? = some f) (hfound : found[i]?.join = none) (hd : f.Holds d)
    (hne : d ≠ .absent) (fuel : Nat) (rest : List Token) :
    readMembers fields (fuel + 1) false found (.comma :: (memberTokens (f.name, d) ++ rest)) =
      readMembers fields fuel false (found.set i (some d)) rest := by
  have hread := hd.readDatum hne rest
  simp only [memberTokens, List.cons_append, List.nil_append, readMembers, hfind, hfound, hfield,
    Option.isSome_none, Option.elim_some, readColon, Bool.false_eq_true, if_false, bind,
    Except.bind, hread]

/-- The first member has no comma in front. -/
theorem readMembers_first (fields : List Field) (m : String × Datum) (fuel : Nat)
    (found : List (Option Datum)) (rest : List Token) :
    readMembers fields (fuel + 1) true found (memberTokens m ++ rest) =
      readMembers fields (fuel + 1) false found (.comma :: (memberTokens m ++ rest)) := by
  rfl

/-- The members that follow are read, each into its place, up to the end of the object. -/
theorem readMembers_later (pre : List Field) {post : List Field} (before after : List Datum)
    (hnames : ((pre ++ post).map (·.name)).Nodup) (hpre : before.length = pre.length)
    (hpost : List.Forall₂ Field.Holds post after) (rest : List Token) (fuel : Nat)
    (hfuel : (members post after).length < fuel) :
    readMembers (pre ++ post) fuel false (before.map Datum.found? ++ post.map fun _ => none)
        (laterTokens (members post after) ++ .closeObject :: rest) =
      .ok ((before ++ after).map Datum.found?, rest) := by
  induction hpost generalizing pre before fuel with
  | nil =>
      obtain ⟨fuel, rfl⟩ := Nat.exists_eq_add_of_le' (Nat.one_le_of_lt hfuel)
      simp [members, laterTokens, readMembers]
  | @cons f d post after hd hrest ih =>
      have hsplit : pre ++ f :: post = (pre ++ [f]) ++ post := by simp
      have hlength : (before ++ [d]).length = (pre ++ [f]).length := by simp [hpre]
      have hstep := ih (pre ++ [f]) (before ++ [d]) (hsplit ▸ hnames) hlength
      rw [members_cons] at hfuel ⊢
      rw [hsplit]
      by_cases habsent : d = .absent
      · rw [if_pos habsent] at hfuel ⊢
        have hdone := hstep fuel hfuel
        simpa [Datum.found?, habsent] using hdone
      · rw [if_neg habsent] at hfuel ⊢
        obtain ⟨fuel, rfl⟩ := Nat.exists_eq_add_of_le' (Nat.one_le_of_lt hfuel)
        have hdone := hstep fuel (by simpa using hfuel)
        have htokens : laterTokens ((f.name, d) :: members post after) ++ .closeObject :: rest =
            .comma :: (memberTokens (f.name, d) ++
              (laterTokens (members post after) ++ .closeObject :: rest)) := by
          simp [laterTokens]
        have hfind := findIdx?_name hnames
        rw [hsplit] at hfind
        rw [htokens, readMembers_member hfind (by simp) (by simp [← hpre]) hd habsent]
        have hset : (before.map Datum.found? ++ (f :: post).map fun _ => none).set pre.length
            (some d) = (before ++ [d]).map Datum.found? ++ post.map fun _ => none := by
          rw [← hpre, List.set_append_right _ _ (by simp)]
          simp [Datum.found?, habsent]
        rw [hset]
        simpa using hdone

theorem length_le_membersTokens (ms : List (String × Datum)) :
    ms.length ≤ (membersTokens ms).length := by
  cases ms with
  | nil => exact Nat.zero_le _
  | cons m ms =>
      have hlater : ms.length ≤ (laterTokens ms).length := by
        induction ms with
        | nil => exact Nat.zero_le _
        | cons m ms ih =>
            simp only [laterTokens, List.flatMap_cons, List.length_append, List.length_cons] at ih ⊢
            omega
      simp only [membersTokens, memberTokens, List.length_append, List.length_cons]
      omega

/-- A record is read back from what was written for it. -/
theorem readRecord_written {fields : List Field} {data : List Datum}
    (hnames : (fields.map (·.name)).Nodup) (hdata : List.Forall₂ Field.Holds fields data)
    (rest : List Token) :
    readRecord fields
        (.openObject :: (membersTokens (members fields data) ++ [.closeObject]) ++ rest) =
      .ok (data, rest) := by
  have hread : ∀ fuel, (members fields data).length ≤ fuel →
      readMembers fields (fuel + 1) true (fields.map fun _ => none)
          (membersTokens (members fields data) ++ .closeObject :: rest) =
        .ok (data.map Datum.found?, rest) := by
    intro fuel hfuel
    have hdone := readMembers_later [] [] data hnames rfl hdata rest (fuel + 1)
      (Nat.lt_succ_of_le hfuel)
    cases hmembers : members fields data with
    | nil =>
        rw [hmembers] at hdone
        exact hdone
    | cons m ms =>
        rw [hmembers] at hdone
        rw [membersTokens, List.append_assoc, readMembers_first]
        simpa [laterTokens] using hdone
  have hlength : (members fields data).length ≤
      (membersTokens (members fields data) ++ .closeObject :: rest).length := by
    rw [List.length_append]
    exact Nat.le_add_right_of_le (length_le_membersTokens _)
  rw [List.cons_append, List.append_assoc, List.singleton_append, readRecord]
  simp only [hread _ hlength, bind, Except.bind, fill_found hdata]
  rfl

end ClusterCache.Wire
