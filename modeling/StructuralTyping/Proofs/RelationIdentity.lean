import StructuralTyping.Proofs.CanonicalName
import StructuralTyping.Proofs.RelationNames
import StructuralTyping.Proofs.RelationTrees

/-!
# What equal names of relations say

The text that is hashed for a relation shows the names of what it refers to outside of its group,
and placeholders inside of it. Without collisions equal names mean equal texts, and equal sets of
texts in the two groups. A placeholder other than the first does not tell which member it stands
for. In a group of two members there is no choice, so there equal names mean equal trees; in larger
groups members can be wired differently under the same names.
-/
namespace StructuralTyping

namespace Text
open ContentHash
variable {text : String}

/-- `X` and then digits. -/
def isPlaceholder (name : String) : Bool :=
  match name.toList with
  | 'X' :: digits => digits.all isDigit
  | _ => false

theorem isTokenChar_of_mem_contentHash {c : Char} (h : c ∈ (contentHash text).toList) :
    isTokenChar c := by
  simp [isTokenChar, isWordChar, isLetter_of_mem_contentHash h]

theorem isIdentifier_contentHash (text : String) : isIdentifier (contentHash text) := by
  have hne : (contentHash text).toList ≠ [] := fun h =>
    contentHash_ne_empty text (String.toList_eq_nil_iff.1 h)
  obtain ⟨c, rest, hlist⟩ := List.exists_cons_of_ne_nil hne
  have hletter : ∀ d ∈ c :: rest, isLetter d := fun d hd =>
    isLetter_of_mem_contentHash (hlist ▸ hd)
  simp only [isIdentifier, hlist, Bool.and_eq_true, List.all_eq_true]
  refine ⟨by simp [hletter c List.mem_cons_self], fun d hd => ?_⟩
  simp [isWordChar, hletter d (List.mem_cons_of_mem c hd)]

theorem placeholder_injective {i j : Nat} (h : placeholder i = placeholder j) : i = j := by
  have hlist := congrArg String.toList h
  rw [toList_placeholder, toList_placeholder] at hlist
  exact toDigits_injective (List.cons.inj hlist).2

theorem isPlaceholder_placeholder (i : Nat) : isPlaceholder (placeholder i) := by
  simp only [isPlaceholder, toList_placeholder, List.all_eq_true]
  exact fun d hd => isDigit_of_mem_toDigits hd

theorem isIdentifier_placeholder (i : Nat) : isIdentifier (placeholder i) := by
  simp only [isIdentifier, toList_placeholder, Bool.and_eq_true, List.all_eq_true]
  refine ⟨by decide, fun d hd => ?_⟩
  simp [isWordChar, isDigit_of_mem_toDigits hd]

end Text

namespace Relations
open Text
open StructuralTyping.Relation
variable {rels rels' : Relations} {c c' : List String} {n m a b t u : String} {r s : Relation}

section Texts

/-- The references of a relation as they are shown in the text that is hashed for it. -/
def shown (rels : Relations) (c : List String) (n : String) (r : Relation) : String → String :=
  rename (outside rels.canonicalNames c)
    (metMembers (sorted c) (outside rels.canonicalNames c) n r.simplify)

/-- The text that is hashed for a member of a group. -/
def ownText (rels : Relations) (c : List String) (n : String) (r : Relation) : String :=
  (r.simplify.mapRefs (rels.shown c n r)).text

/-- The hashes of the texts of the members of a group. -/
def groupHashes (rels : Relations) (c : List String) : List String :=
  (NameSet.ofList (memberHashes (rels.map simplify) (sorted c)
    (outside rels.canonicalNames c))).toList

theorem mem_groupHashes {h : String} : h ∈ rels.groupHashes c ↔
    ∃ a ∈ c, ∃ r, rels.get? a = some r ∧ contentHash (rels.ownText c a r) = h := by
  simp only [groupHashes, NameSet.mem_toList, NameSet.contains_ofList, memberHashes,
    List.mem_filterMap, mem_sorted, NameMap.get?_map, Option.map_map, Option.map_eq_some_iff]
  rfl

/-- A name is the hash of the own hash and of the hashes of the group. -/
theorem get?_name (hc : c ∈ rels.referenceGraph.components) (hn : n ∈ c)
    (hr : rels.get? n = some r) : rels.canonicalNames.get? n =
      some (contentHash (contentHash (rels.ownText c n r) ++ ":" ++
        ":".intercalate (rels.groupHashes c))) :=
  get?_canonicalNames hc hn hr

theorem mem_hashed (hc : c ∈ rels.referenceGraph.components) (hn : n ∈ c)
    (hr : rels.get? n = some r) : rels.ownText c n r ∈ rels.hashedTexts ∧
      contentHash (rels.ownText c n r) ++ ":" ++ ":".intercalate (rels.groupHashes c) ∈
        rels.hashedTexts :=
  mem_hashedTexts hc hn hr

/-- Different texts have different hashes. -/
def CollisionFree (texts : List String) : Prop :=
  ∀ s ∈ texts, ∀ t ∈ texts, contentHash s = contentHash t → s = t

instance (texts : List String) : Decidable (CollisionFree texts) :=
  inferInstanceAs (Decidable (∀ s ∈ texts, ∀ t ∈ texts, contentHash s = contentHash t → s = t))

theorem colon_breaks (rest : List Char) : Breaks (':' :: rest) := breaks_cons.2 (by decide)

/-- Hashes that are joined by colons can be told apart. -/
theorem intercalate_hashes_injective {hs hs' : List String} (hne : hs ≠ []) (hne' : hs' ≠ [])
    (hhash : ∀ h ∈ hs, ∃ text, contentHash text = h)
    (hhash' : ∀ h ∈ hs', ∃ text, contentHash text = h)
    (heq : ":".intercalate hs = ":".intercalate hs') : hs = hs' := by
  have hlist : List.intercalate [':'] (hs.map String.toList) ++ [] =
      List.intercalate [':'] (hs'.map String.toList) ++ [] := by
    simpa [String.toList_intercalate] using congrArg String.toList heq
  have hread : ∀ h ∈ hs, ∀ h' ∈ hs', ∀ r q, Breaks r → Breaks q →
      h.toList ++ r = h'.toList ++ q → h = h' ∧ r = q := by
    intro h hh h' hh' r q hr hq hrest
    obtain ⟨text, rfl⟩ := hhash h hh
    obtain ⟨text', rfl⟩ := hhash' h' hh'
    obtain ⟨heq, hrest⟩ := token_append_inj (fun _ => isTokenChar_of_mem_contentHash)
      (fun _ => isTokenChar_of_mem_contentHash) hr hq hrest
    exact ⟨String.toList_injective heq, hrest⟩
  have hall := intercalate_append_inj colon_breaks hne hne' hread breaks_nil breaks_nil (by simp)
    (by simp) hlist
  exact List.forall₂_eq_eq_eq ▸ hall.1

variable (hc : c ∈ rels.referenceGraph.components) (ha : a ∈ c) (hr : rels.get? a = some r)
  (hc' : c' ∈ rels'.referenceGraph.components) (hb : b ∈ c') (hs : rels'.get? b = some s)
include hc ha hr hc' hb hs

/-- Without collisions, members of groups have the same name exactly if they have the same text and
their groups have the same hashes. -/
theorem name_eq_iff (hfree : CollisionFree (rels.hashedTexts ++ rels'.hashedTexts)) :
    rels.canonicalNames.get? a = rels'.canonicalNames.get? b ↔
      rels.ownText c a r = rels'.ownText c' b s ∧ rels.groupHashes c = rels'.groupHashes c' := by
  obtain ⟨hown, hname⟩ := mem_hashed hc ha hr
  obtain ⟨hown', hname'⟩ := mem_hashed hc' hb hs
  rw [get?_name hc ha hr, get?_name hc' hb hs, Option.some.injEq]
  constructor
  · intro heq
    have htext := hfree _ (List.mem_append_left _ hname) _ (List.mem_append_right _ hname') heq
    have hlist := congrArg String.toList htext
    simp only [String.toList_append, List.append_assoc] at hlist
    obtain ⟨hhash, hrest⟩ := token_append_inj (fun _ => isTokenChar_of_mem_contentHash)
      (fun _ => isTokenChar_of_mem_contentHash) (colon_breaks _) (colon_breaks _) hlist
    refine ⟨hfree _ (List.mem_append_left _ hown) _ (List.mem_append_right _ hown')
      (String.toList_injective hhash), ?_⟩
    have hhashes {rels : Relations} {c : List String} : ∀ h ∈ rels.groupHashes c,
        ∃ text, contentHash text = h := by
      intro h hh
      obtain ⟨a, -, r, -, rfl⟩ := mem_groupHashes.1 hh
      exact ⟨_, rfl⟩
    exact intercalate_hashes_injective
      (List.ne_nil_of_mem (mem_groupHashes.2 ⟨a, ha, r, hr, rfl⟩))
      (List.ne_nil_of_mem (mem_groupHashes.2 ⟨b, hb, s, hs, rfl⟩)) hhashes hhashes
      (String.toList_injective (List.cons.inj hrest).2)
  · rintro ⟨htext, hhashes⟩
    rw [htext, hhashes]

end Texts

section Shown

/-- Undefined references are identifiers that look neither like placeholders nor like hashes. -/
def PlainLeaves (rels : Relations) : Prop :=
  ∀ e ∈ rels.entries, ∀ t ∈ e.2.occurrences, ¬rels.contains t →
    isIdentifier t ∧ ¬isPlaceholder t ∧ ¬isHashText t

instance (rels : Relations) : Decidable rels.PlainLeaves :=
  inferInstanceAs (Decidable (∀ e ∈ rels.entries, ∀ t ∈ e.2.occurrences, ¬rels.contains t →
    isIdentifier t ∧ ¬isPlaceholder t ∧ ¬isHashText t))

theorem PlainLeaves.leaf (h : PlainLeaves rels) (hr : rels.get? n = some r)
    (ht : t ∈ r.occurrences) (htd : ¬rels.contains t) :
    isIdentifier t ∧ ¬isPlaceholder t ∧ ¬isHashText t :=
  h (n, r) (NameMap.get?_eq_some_iff.1 hr) t ht htd

/-- The position at which a member of a group is met. -/
def position (rels : Relations) (c : List String) (n : String) (r : Relation) (t : String) : Nat :=
  (metMembers (sorted c) (outside rels.canonicalNames c) n r.simplify).idxOf t

theorem position_eq_zero_iff : rels.position c n r t = 0 ↔ t = n := by
  unfold position metMembers
  rw [List.eraseDups_cons]
  by_cases h : n = t
  · simp [h]
  · simp [h, Ne.symm h]

/-- A member of the group is shown by a placeholder, any other definition by its name, and what is
undefined by itself. -/
theorem shown_cases (hn : n ∈ c) (ht : t ∈ r.occurrences) :
    (t ∈ c ∧ rels.shown c n r t = placeholder (rels.position c n r t)) ∨
    (t ∉ c ∧ rels.contains t ∧ rels.canonicalNames.get? t = some (rels.shown c n r t)) ∨
    (¬rels.contains t ∧ rels.shown c n r t = t) := by
  have hget : (outside rels.canonicalNames c).get? t =
      if t ∈ c then none else rels.canonicalNames.get? t := get?_outside
  by_cases htc : t ∈ c
  · rw [if_pos htc] at hget
    have hmet : t ∈ metMembers (sorted c) (outside rels.canonicalNames c) n r.simplify :=
      mem_metMembers.2 (.inr ⟨by rwa [occurrences_simplify], hget, mem_sorted.2 htc⟩)
    refine .inl ⟨htc, ?_⟩
    simp only [shown, rename, hget, if_pos hmet]
    rfl
  · rw [if_neg htc] at hget
    by_cases htd : rels.contains t
    · obtain ⟨name, hname⟩ := NameMap.contains_iff.1 ((contains_canonicalNames rels t).2 htd)
      refine .inr (.inl ⟨htc, htd, ?_⟩)
      rw [hname] at hget ⊢
      simp only [shown, rename, hget]
    · have hmet : t ∉ metMembers (sorted c) (outside rels.canonicalNames c) n r.simplify := by
        rw [mem_metMembers, mem_sorted]
        rintro (rfl | ⟨-, -, h⟩)
        · exact htc hn
        · exact htc h
      have hnone : rels.canonicalNames.get? t = none :=
        NameMap.get?_eq_none_iff.2 fun h => htd ((contains_canonicalNames rels t).1 h)
      rw [hnone] at hget
      refine .inr (.inr ⟨htd, ?_⟩)
      simp only [shown, rename, hget, if_neg hmet]

theorem exists_contentHash_of_name {name : String} (h : rels.canonicalNames.get? t = some name) :
    ∃ text, contentHash text = name := by
  have htd := (contains_canonicalNames rels t).1 (NameMap.contains_of_get? h)
  obtain ⟨c, hc, htc⟩ := Digraph.exists_component (mem_vertices_referenceGraph.2 htd)
  obtain ⟨r, hr⟩ := NameMap.contains_iff.1 htd
  rw [get?_name hc htc hr] at h
  exact ⟨_, Option.some.inj h⟩

/-- The three kinds of references are shown in different ways. -/
theorem shown_kinds (hleaves : PlainLeaves rels) (hn : n ∈ c) (hr : rels.get? n = some r)
    (ht : t ∈ r.occurrences) :
    (t ∈ c ∧ rels.shown c n r t = placeholder (rels.position c n r t) ∧
      isPlaceholder (rels.shown c n r t) ∧ ¬isHashText (rels.shown c n r t)) ∨
    (rels.contains t ∧ rels.canonicalNames.get? t = some (rels.shown c n r t) ∧
      isHashText (rels.shown c n r t)) ∨
    (¬rels.contains t ∧ rels.shown c n r t = t ∧
      ¬isPlaceholder (rels.shown c n r t) ∧ ¬isHashText (rels.shown c n r t)) := by
  rcases shown_cases hn ht with ⟨htc, heq⟩ | ⟨-, htd, hname⟩ | ⟨htd, heq⟩
  · refine .inl ⟨htc, heq, ?_⟩
    rw [heq]
    exact ⟨isPlaceholder_placeholder _, not_isHashText_placeholder _⟩
  · obtain ⟨text, htext⟩ := exists_contentHash_of_name hname
    exact .inr (.inl ⟨htd, hname, htext ▸ isHashText_contentHash text⟩)
  · refine .inr (.inr ⟨htd, heq, ?_⟩)
    rw [heq]
    exact (hleaves.leaf hr ht htd).2

theorem isIdentifier_shown (hleaves : PlainLeaves rels) (hn : n ∈ c) (hr : rels.get? n = some r)
    (ht : t ∈ r.occurrences) : isIdentifier (rels.shown c n r t) := by
  rcases shown_cases hn ht with ⟨-, heq⟩ | ⟨-, -, hname⟩ | ⟨htd, heq⟩
  · rw [heq]
    exact isIdentifier_placeholder _
  · obtain ⟨text, htext⟩ := exists_contentHash_of_name hname
    exact htext ▸ isIdentifier_contentHash text
  · rw [heq]
    exact (hleaves.leaf hr ht htd).1

theorem not_contains_of_shown_boolean (hleaves : PlainLeaves rels) (hn : n ∈ c)
    (hr : rels.get? n = some r) (ht : t ∈ r.occurrences)
    (h : rels.shown c n r t = "true" ∨ rels.shown c n r t = "false") : ¬rels.contains t := by
  have hkind : ¬isPlaceholder (rels.shown c n r t) ∧ ¬isHashText (rels.shown c n r t) := by
    rcases h with h | h <;> rw [h] <;> decide
  rcases shown_kinds hleaves hn hr ht with ⟨-, -, hplaceholder, -⟩ | ⟨-, -, hhash⟩ | ⟨htd, -, -⟩
  · exact absurd hplaceholder hkind.1
  · exact absurd hhash hkind.2
  · exact htd

/-- References that are shown alike are members of the groups at the same position, definitions with
the same name, or the same undefined name. -/
theorem shown_eq_cases (hleaves : PlainLeaves rels) (hleaves' : PlainLeaves rels') (ha : a ∈ c)
    (hr : rels.get? a = some r) (ht : t ∈ r.occurrences) (hb : b ∈ c')
    (hs : rels'.get? b = some s) (hu : u ∈ s.occurrences)
    (heq : rels.shown c a r t = rels'.shown c' b s u) :
    (t ∈ c ∧ u ∈ c' ∧ rels.position c a r t = rels'.position c' b s u) ∨
    (rels.contains t ∧ rels'.contains u ∧
      rels.canonicalNames.get? t = rels'.canonicalNames.get? u) ∨
    (¬rels.contains t ∧ ¬rels'.contains u ∧ t = u) := by
  have hkinds := shown_kinds hleaves' hb hs hu
  rw [← heq] at hkinds
  rcases shown_kinds hleaves ha hr ht with
      ⟨htc, hsh, hp, hh⟩ | ⟨htd, hname, hh⟩ | ⟨htd, hsh, hp, hh⟩ <;>
    rcases hkinds with ⟨huc, hsh', hp', hh'⟩ | ⟨hud, hname', hh'⟩ | ⟨hud, hsh', hp', hh'⟩
  · exact .inl ⟨htc, huc, placeholder_injective (hsh.symm.trans hsh')⟩
  · exact absurd hh' hh
  · exact absurd hp hp'
  · exact absurd hh hh'
  · exact .inr (.inl ⟨htd, hud, hname.trans hname'.symm⟩)
  · exact absurd hh hh'
  · exact absurd hp' hp
  · exact absurd hh' hh
  · exact .inr (.inr ⟨htd, hud, hsh.symm.trans hsh'⟩)

end Shown

section Groups

/-- A group in which placeholders leave no choice: it has two members at most, or all its members
have the same text. -/
def Unambiguous (rels : Relations) (c : List String) : Prop :=
  c.length ≤ 2 ∨ ∀ a ∈ c, ∀ b ∈ c, ∀ r s, rels.get? a = some r → rels.get? b = some s →
    rels.ownText c a r = rels.ownText c b s

/-- All texts of the group are those of any two members of it. -/
theorem Unambiguous.text_cases (h : Unambiguous rels c) (ha : a ∈ c) (ht : t ∈ c) (hne : t ≠ a)
    {v : String} (hv : v ∈ c) {p q w : Relation} (hp : rels.get? a = some p)
    (hq : rels.get? t = some q) (hw : rels.get? v = some w) :
    rels.ownText c v w = rels.ownText c a p ∨ rels.ownText c v w = rels.ownText c t q := by
  rcases h with hlength | hall
  · have hmem : v = a ∨ v = t := by
      by_contra hv'
      rw [not_or] at hv'
      have hnodup : [a, t, v].Nodup := by simp [Ne.symm hne, Ne.symm hv'.1, Ne.symm hv'.2]
      have hsub : [a, t, v] ⊆ c := by simp [ha, ht, hv]
      have hle := (List.subperm_of_subset hnodup hsub).length_le
      simp at hle
      omega
    rcases hmem with rfl | rfl
    · exact .inl (by rw [Option.some.inj (hw.symm.trans hp)])
    · exact .inr (by rw [Option.some.inj (hw.symm.trans hq)])
  · exact .inl (hall v hv a ha w p hw hp)

theorem CollisionFree.symm {texts texts' : List String} (h : CollisionFree (texts ++ texts')) :
    CollisionFree (texts' ++ texts) := by
  have hmem {s : String} : s ∈ texts' ++ texts → s ∈ texts ++ texts' := by
    simp only [List.mem_append]
    exact Or.symm
  exact fun s hs t ht => h s (hmem hs) t (hmem ht)

/-- A text of a group is one of any group with the same hashes. -/
theorem exists_text_eq (hfree : CollisionFree (rels.hashedTexts ++ rels'.hashedTexts))
    (hc : c ∈ rels.referenceGraph.components) (hc' : c' ∈ rels'.referenceGraph.components)
    (hhashes : rels.groupHashes c = rels'.groupHashes c') (ha : a ∈ c)
    (hr : rels.get? a = some r) :
    ∃ v ∈ c', ∃ w, rels'.get? v = some w ∧ rels.ownText c a r = rels'.ownText c' v w := by
  have hmem := mem_groupHashes.2 ⟨a, ha, r, hr, rfl⟩
  rw [hhashes] at hmem
  obtain ⟨v, hv, w, hw, heq⟩ := mem_groupHashes.1 hmem
  exact ⟨v, hv, w, hw, hfree _ (List.mem_append_left _ (mem_hashed hc ha hr).1) _
    (List.mem_append_right _ (mem_hashed hc' hv hw).1) heq.symm⟩

/-- In unambiguous groups with the same name, members at the same position have the same name. -/
theorem name_eq_of_position_eq (hfree : CollisionFree (rels.hashedTexts ++ rels'.hashedTexts))
    (hc : c ∈ rels.referenceGraph.components) (hgroup : Unambiguous rels c) (ha : a ∈ c)
    (hr : rels.get? a = some r) (hc' : c' ∈ rels'.referenceGraph.components)
    (hgroup' : Unambiguous rels' c') (hb : b ∈ c') (hs : rels'.get? b = some s)
    (hname : rels.canonicalNames.get? a = rels'.canonicalNames.get? b) (ht : t ∈ c) (hu : u ∈ c')
    (hposition : rels.position c a r t = rels'.position c' b s u) :
    rels.canonicalNames.get? t = rels'.canonicalNames.get? u := by
  by_cases hta : t = a
  · rw [position_eq_zero_iff.2 hta] at hposition
    rw [hta, position_eq_zero_iff.1 hposition.symm, hname]
  · have hub : u ≠ b := by
      intro hub
      rw [position_eq_zero_iff.2 hub, position_eq_zero_iff] at hposition
      exact hta hposition
    obtain ⟨q, hq⟩ := exists_get?_of_mem_component hc ht
    obtain ⟨w, hw⟩ := exists_get?_of_mem_component hc' hu
    obtain ⟨htext, hhashes⟩ := (name_eq_iff hc ha hr hc' hb hs hfree).1 hname
    refine (name_eq_iff hc ht hq hc' hu hw hfree).2 ⟨?_, hhashes⟩
    obtain ⟨v, hv, x, hx, htv⟩ := exists_text_eq hfree hc hc' hhashes ht hq
    obtain ⟨v', hv', x', hx', huv⟩ := exists_text_eq hfree.symm hc' hc hhashes.symm hu hw
    rcases hgroup'.text_cases hb hu hub hv hs hw hx with hvb | hvu
    · rcases hgroup.text_cases ha ht hta hv' hr hq hx' with hva | hvt
      · rw [htv, hvb, huv, hva, htext]
      · rw [huv, hvt]
    · rw [htv, hvu]

/-- All groups that can be reached are unambiguous. -/
def UnambiguousFrom (rels : Relations) (n : String) : Prop :=
  ∀ c ∈ rels.referenceGraph.components, (∃ a ∈ c, rels.referenceGraph.Reaches n a) →
    Unambiguous rels c

end Groups

section Main

/-- Definitions that can be reached from `n` and `m` and have the same name. -/
def SameName (rels rels' : Relations) (n m a b : String) : Prop :=
  rels.referenceGraph.Reaches n a ∧ rels'.referenceGraph.Reaches m b ∧ rels.contains a ∧
    rels.canonicalNames.get? a = rels'.canonicalNames.get? b

theorem SameName.contains (h : SameName rels rels' n m a b) : rels'.contains b := by
  obtain ⟨-, -, had, hname⟩ := h
  rw [← contains_canonicalNames, NameMap.contains] at had ⊢
  rw [← hname]
  exact had

theorem shows_shown (hleaves : PlainLeaves rels) (hc : c ∈ rels.referenceGraph.components)
    (hn : n ∈ c) (hr : rels.get? n = some r) :
    Shows (rels.map simplify) (rels.shown c n r) r.simplify where
  undefined t ht htd := by
    rw [occurrences_simplify] at ht
    rw [contains_simplify] at htd
    rcases shown_kinds hleaves hn hr ht with ⟨htc, -⟩ | ⟨hdefined, -⟩ | ⟨-, heq, -⟩
    · exact absurd (contains_of_mem_component hc htc) htd
    · exact absurd hdefined htd
    · exact heq
  boolean t ht := by
    rw [occurrences_simplify] at ht
    rw [contains_simplify]
    exact not_contains_of_shown_boolean hleaves hn hr ht

theorem SameName.matched (hleaves : PlainLeaves rels) (hleaves' : PlainLeaves rels')
    (hfree : CollisionFree (rels.hashedTexts ++ rels'.hashedTexts))
    (hgroups : UnambiguousFrom rels n) (hgroups' : UnambiguousFrom rels' m)
    (h : SameName rels rels' n m a b) : ∃ d e f g, (rels.map simplify).get? a = some d ∧
      (rels'.map simplify).get? b = some e ∧
      Matched (rels.map simplify) (rels'.map simplify) (SameName rels rels' n m) f g d e := by
  have hbd := h.contains
  obtain ⟨hna, hmb, had, hname⟩ := h
  obtain ⟨r, hr⟩ := NameMap.contains_iff.1 had
  obtain ⟨s, hs⟩ := NameMap.contains_iff.1 hbd
  obtain ⟨c, hc, hac⟩ := Digraph.exists_component (mem_vertices_referenceGraph.2 had)
  obtain ⟨c', hc', hbc'⟩ := Digraph.exists_component (mem_vertices_referenceGraph.2 hbd)
  have hgroup := hgroups c hc ⟨a, hac, hna⟩
  have hgroup' := hgroups' c' hc' ⟨b, hbc', hmb⟩
  have htext := ((name_eq_iff hc hac hr hc' hbc' hs hfree).1 hname).1
  have hread := asRead_eq_of_text_eq
    (legible_simplify_mapRefs fun t ht => isIdentifier_shown hleaves hac hr ht)
    (legible_simplify_mapRefs fun t ht => isIdentifier_shown hleaves' hbc' hs ht) htext
  refine ⟨r.simplify, s.simplify, _, _, by rw [NameMap.get?_map, hr, Option.map_some],
    by rw [NameMap.get?_map, hs, Option.map_some], hread, fun t ht u hu heq => ?_,
    shows_shown hleaves hc hac hr, shows_shown hleaves' hc' hbc' hs⟩
  rw [occurrences_simplify] at ht hu
  simp only [Linked, contains_simplify]
  have hstep (htd : rels.contains t) : rels.referenceGraph.Reaches n t :=
    hna.trans (.single (mem_edges_referenceGraph.2 ⟨r, hr, ht, htd⟩))
  have hstep' (hud : rels'.contains u) : rels'.referenceGraph.Reaches m u :=
    hmb.trans (.single (mem_edges_referenceGraph.2 ⟨s, hs, hu, hud⟩))
  rcases shown_eq_cases hleaves hleaves' hac hr ht hbc' hs hu heq with
    ⟨htc, huc, hposition⟩ | ⟨htd, hud, hsame⟩ | hundefined
  · have htd := contains_of_mem_component hc htc
    have hud := contains_of_mem_component hc' huc
    exact .inl ⟨htd, hud, hstep htd, hstep' hud, htd,
      name_eq_of_position_eq hfree hc hgroup hac hr hc' hgroup' hbc' hs hname htc huc hposition⟩
  · exact .inl ⟨htd, hud, hstep htd, hstep' hud, htd, hsame⟩
  · exact .inr hundefined

/-- Equal names mean equal trees, if no group that can be reached has more than two members with
different texts. -/
theorem sameTree_of_canonicalNames_eq (rels rels' : Relations) (n m : String)
    (hn : rels.contains n) (hleaves : PlainLeaves rels) (hleaves' : PlainLeaves rels')
    (hfree : CollisionFree (rels.hashedTexts ++ rels'.hashedTexts))
    (hgroups : UnambiguousFrom rels n) (hgroups' : UnambiguousFrom rels' m)
    (hname : rels.canonicalNames.get? n = rels'.canonicalNames.get? m) :
    SameTree rels rels' n m := by
  intro path node
  have hroot : SameName rels rels' n m n m := ⟨.refl n, .refl m, hn, hname⟩
  have hm : rels'.contains m := hroot.contains
  have hmatched : Matched (rels.map simplify) (rels'.map simplify) (SameName rels rels' n m)
      (fun _ => "") (fun _ => "") (ref n) (ref m) := by
    refine ⟨rfl, ?_, ?_, ?_⟩
    · simp [occurrences, Linked, contains_simplify, hn, hm, hroot]
    · constructor <;> simp [occurrences, contains_simplify, hn]
    · constructor <;> simp [occurrences, contains_simplify, hm]
  exact nodeAt_iff_of_matched
    (fun _ _ hab => hab.matched hleaves hleaves' hfree hgroups hgroups') hmatched

/-- Even and odd numbers twice, under different names. -/
def twiceParity : Relations := .ofList [
  ("even", .union [.dot "zero", .comp [.dot "pred", .ref "odd", .ref "succ"]]),
  ("odd", .comp [.dot "pred", .ref "even"]),
  ("e", .union [.dot "zero", .comp [.dot "pred", .ref "o", .ref "succ"]]),
  ("o", .comp [.dot "pred", .ref "e"])]

theorem sameTree_of_canonicalNames_eq_parity : SameTree twiceParity twiceParity "even" "e" := by
  have hsmall : ∀ c ∈ twiceParity.referenceGraph.components, c.length ≤ 2 := by decide +kernel
  exact sameTree_of_canonicalNames_eq twiceParity twiceParity "even" "e" (by decide +kernel)
    (by decide +kernel) (by decide +kernel) (by decide +kernel) (fun c hc _ => .inl (hsmall c hc))
    (fun c hc _ => .inl (hsmall c hc)) (by decide +kernel)

/-- Two cycles of three relations each, which meet the same definitions in different order. -/
def rewired : Relations := .ofList [
  ("p", .comp [.dot "a", .ref "q"]), ("q", .comp [.dot "b", .ref "r"]),
  ("r", .comp [.dot "c", .ref "p"]),
  ("x", .comp [.dot "a", .ref "z"]), ("z", .comp [.dot "c", .ref "y"]),
  ("y", .comp [.dot "b", .ref "x"])]

/-- In groups of three, equal names do not mean equal trees. -/
theorem not_sameTree_rewired :
    rewired.PlainLeaves ∧ CollisionFree rewired.hashedTexts ∧
    rewired.canonicalNames.get? "p" = rewired.canonicalNames.get? "x" ∧
    ¬SameTree rewired rewired "p" "x" := by
  refine ⟨by decide +kernel, by decide +kernel, by decide +kernel, fun hsame => ?_⟩
  have hp : NodeAt (rewired.map simplify) (ref "p") [1, 0] (dot "b") :=
    .unfold rfl (.child rfl (.unfold rfl (.child rfl (.here (by simp [simplify])))))
  have hx : NodeAt (rewired.map simplify) (ref "x") [1, 0] (dot "c") :=
    .unfold rfl (.child rfl (.unfold rfl (.child rfl (.here (by simp [simplify])))))
  have heq := ((hsame _ _).1 hp).unique hx
  simp at heq

end Main

end Relations

end StructuralTyping
