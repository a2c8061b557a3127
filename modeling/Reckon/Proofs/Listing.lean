import Mathlib.Data.List.Dedup
import Reckon.Proofs.Independence
import Reckon.Proofs.Restore

/-! The store as a finite map. Whatever was set, in whatever order and however often, each name
keeps its last value, and the entries list the names once each in the order of their bytes. Equal
maps therefore have equal listings. -/

set_option autoImplicit false

namespace Reckon
namespace Text

def bytes (s : String) : List UInt8 := s.toUTF8.data.toList

theorem bytes_eq (s : String) : bytes s = s.toList.flatMap String.utf8EncodeChar := by
  rw [bytes, String.toUTF8_eq_toByteArray, ← String.ofList_toList (s := s),
    String.toByteArray_ofList]
  simp [List.utf8Encode]

theorem ofNat_cons_lt_iff {a b : Nat} (ha : a < 256) (hb : b < 256) (x y : List UInt8) :
    UInt8.ofNat a :: x < UInt8.ofNat b :: y ↔ a < b ∨ a = b ∧ x < y := by
  rw [List.cons_lt_cons_iff, UInt8.lt_iff_toNat_lt, ← UInt8.toNat_inj,
    UInt8.toNat_ofNat_of_lt' ha, UInt8.toNat_ofNat_of_lt' hb]

theorem encode_append_lt {c d : Char} (h : c < d) (x y : List UInt8) :
    String.utf8EncodeChar c ++ x < String.utf8EncodeChar d ++ y := by
  have hlt : c.val.toNat < d.val.toNat := h
  have hmax : d.val.toNat < 0x110000 := by
    rcases d.valid with hd | hd
    · omega
    · exact hd.2
  have hquot : ∀ k : Nat, k / 4096 = k / 64 / 64 ∧ k / 262144 = k / 64 / 64 / 64 := by omega
  simp only [String.utf8EncodeChar]
  generalize c.val.toNat = m at hlt
  generalize d.val.toNat = n at hlt hmax
  -- The first byte tells the lengths apart, and at equal lengths the bytes hold the digits of the
  -- code point to base 64, the highest first.
  repeat' split
  all_goals
    simp (disch := omega) only [List.cons_append, ofNat_cons_lt_iff, hquot]
    omega

theorem encode_lt {cs ds : List Char} (h : cs < ds) :
    cs.flatMap String.utf8EncodeChar < ds.flatMap String.utf8EncodeChar := by
  induction cs generalizing ds with
  | nil =>
    cases ds with
    | nil => exact absurd h (List.lt_irrefl _)
    | cons d ds =>
      rw [List.flatMap_nil, List.flatMap_cons]
      cases he : String.utf8EncodeChar d with
      | nil => exact absurd he String.utf8EncodeChar_ne_nil
      | cons b bs => exact List.nil_lt_cons _ _
  | cons c cs ih =>
    cases ds with
    | nil => exact absurd h (List.not_lt_nil _)
    | cons d ds =>
      rw [List.flatMap_cons, List.flatMap_cons]
      rcases List.cons_lt_cons_iff.1 h with hlt | ⟨rfl, hlt⟩
      · exact encode_append_lt hlt _ _
      · exact List.append_left_lt (ih hlt)

/-- The order of characters is the order of bytes. -/
theorem bytes_lt_bytes {s t : String} (h : s < t) : bytes s < bytes t := by
  rw [bytes_eq, bytes_eq]
  exact encode_lt h

end Text

def LastSet (history : List Entry) (name : String) (value : Value) : Prop :=
  ∃ before after, history = before ++ (name, value) :: after ∧ ∀ e ∈ after, e.1 ≠ name

theorem lastSet_iff {history : List Entry} {name : String} {value : Value} :
    LastSet history name value ↔ history.reverse.lookup name = some value := by
  rw [List.lookup_eq_some_iff]
  constructor
  · rintro ⟨before, after, rfl, hafter⟩
    refine ⟨after.reverse, before.reverse, by simp, fun e he => ?_⟩
    exact bne_iff_ne.2 (hafter e (List.mem_reverse.1 he)).symm
  · rintro ⟨after, before, hreverse, hafter⟩
    refine ⟨before.reverse, after.reverse, ?_, fun e he => ?_⟩
    · rw [← List.reverse_reverse history, hreverse]
      simp
    · exact (bne_iff_ne.1 (hafter e (List.mem_reverse.1 he))).symm

theorem exists_lastSet_iff (history : List Entry) (name : String) :
    (∃ value, LastSet history name value) ↔ name ∈ history.map Prod.fst := by
  simp only [lastSet_iff, ← Option.isSome_iff_exists, List.lookup_isSome_iff, List.mem_reverse,
    List.mem_map, beq_iff_eq]
  exact exists_congr fun e => and_congr_right fun _ => eq_comm

namespace Store

theorem get?_setAll (s : Store) (history : List Entry) (name : String) :
    (s.setAll history).get? name = (history.reverse.lookup name).or (s.get? name) := by
  induction history generalizing s with
  | nil => rfl
  | cons e history ih =>
    have hstep : s.setAll (e :: history) = (s.set e.1 e.2).setAll history := rfl
    rw [hstep, ih, get?_set, List.reverse_cons, List.lookup_append, lookup_entry, Option.or_assoc]
    by_cases h : name = e.1
    · simp [h]
    · simp [h]

theorem get?_eq_some_iff (history : List Entry) (name : String) (value : Value) :
    (empty.setAll history).get? name = some value ↔ LastSet history name value := by
  rw [get?_setAll, get?_empty, Option.or_none, lastSet_iff]

theorem mem_entries_iff (history : List Entry) (name : String) (value : Value) :
    (name, value) ∈ (empty.setAll history).entries ↔ LastSet history name value :=
  (mem_iff_lookup (empty.setAll history).increasing).trans (get?_eq_some_iff history name value)

theorem nodup_names (s : Store) : (s.entries.map Prod.fst).Nodup := by
  refine List.pairwise_map.2 (s.increasing.imp ?_)
  intro a b hlt heq
  exact String.lt_irrefl b.1 (heq ▸ hlt)

/-- Whatever puts the entries in the order of their names finds the one listing there is. -/
theorem eq_entries_of_perm {s : Store} {es : List Entry} (hperm : es.Perm s.entries)
    (hsorted : es.Pairwise fun a b => a.1 ≤ b.1) : es = s.entries := by
  have hentries : s.entries.Pairwise fun a b => a.1 ≤ b.1 := by
    refine s.increasing.imp fun hlt => String.not_lt.1 fun hgt => ?_
    exact String.lt_irrefl _ (String.lt_trans hlt hgt)
  refine List.Perm.eq_of_pairwise (fun a b ha hb hab hba => ?_) hsorted hentries hperm
  exact List.inj_on_of_nodup_map s.nodup_names (hperm.mem_iff.1 ha) hb (String.le_antisymm hab hba)

/-- Sorting an unordered collection that holds each name once. -/
theorem mergeSort_eq_entries {s : Store} {es : List Entry} (hnodup : (es.map Prod.fst).Nodup)
    (hmem : ∀ name value, (name, value) ∈ es ↔ s.get? name = some value) :
    es.mergeSort (fun a b => decide (a.1 ≤ b.1)) = s.entries := by
  have hperm : es.Perm s.entries := by
    rw [List.perm_ext_iff_of_nodup hnodup.of_map s.nodup_names.of_map]
    exact fun e => (hmem e.1 e.2).trans (mem_iff_lookup s.increasing).symm
  refine eq_entries_of_perm ((List.mergeSort_perm es _).trans hperm) ?_
  have hsorted := @List.pairwise_mergeSort Entry (fun a b => decide (a.1 ≤ b.1))
    (fun a b c hab hbc => ?_) (fun a b => ?_) es
  · simpa using hsorted
  · exact decide_eq_true (String.le_trans (of_decide_eq_true hab) (of_decide_eq_true hbc))
  · simpa using String.le_total a.1 b.1

theorem mem_names_iff (history : List Entry) (name : String) :
    name ∈ (empty.setAll history).entries.map Prod.fst ↔ name ∈ history.map Prod.fst := by
  rw [← exists_lastSet_iff history]
  simp only [← mem_entries_iff, List.mem_map, Prod.exists, exists_and_right, exists_eq_right]

theorem size_setAll (history : List Entry) :
    (empty.setAll history).size = (history.map Prod.fst).dedup.length := by
  have hperm : ((empty.setAll history).entries.map Prod.fst).Perm (history.map Prod.fst).dedup := by
    rw [List.perm_ext_iff_of_nodup (nodup_names _) (List.nodup_dedup _)]
    intro name
    rw [List.mem_dedup, mem_names_iff]
  rw [size, ← hperm.length_eq, List.length_map]

end Store

/-- A store made by assignments alone holds under each name the last value given to it. Its entries
list the names, once each and in the order of their bytes, and two histories make the same listing
just when they give every name the same last value. -/
theorem Store.lists_last_values (history : List Entry) :
    let s := empty.setAll history
    (∀ name value, s.get? name = some value ↔ LastSet history name value) ∧
    (∀ name, s.get? name = none ↔ name ∉ history.map Prod.fst) ∧
    (∀ name value, (name, value) ∈ s.entries ↔ LastSet history name value) ∧
    (∀ name, (s.entries.map Prod.fst).count name = if name ∈ history.map Prod.fst then 1 else 0) ∧
    (s.entries.Pairwise fun a b => Text.bytes a.1 < Text.bytes b.1) ∧
    (s.size = s.entries.length ∧ s.size = (history.map Prod.fst).dedup.length) ∧
    (s.isEmpty = true ↔ s.entries = []) ∧
    ∀ other : List Entry, s.entries = (empty.setAll other).entries ↔
      ∀ name value, LastSet history name value ↔ LastSet other name value := by
  intro s
  refine ⟨get?_eq_some_iff history, fun name => ?_, mem_entries_iff history, fun name => ?_,
    s.increasing.imp Text.bytes_lt_bytes, ⟨rfl, size_setAll history⟩, List.isEmpty_iff,
    fun other => ⟨fun h name value => ?_, fun h => ?_⟩⟩
  · rw [← exists_lastSet_iff, Option.eq_none_iff_forall_ne_some, not_exists]
    simp only [ne_eq, s, get?_eq_some_iff]
  · rw [(nodup_names s).count]
    simp only [s, mem_names_iff]
  · rw [← mem_entries_iff, ← mem_entries_iff, h]
  · refine congrArg entries (ext_get? fun name => Option.ext fun value => ?_)
    rw [get?_eq_some_iff, get?_eq_some_iff, h]

end Reckon
