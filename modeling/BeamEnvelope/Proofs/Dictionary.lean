import BeamEnvelope.Dictionary
import Mathlib.Data.List.Sort

/-!
# Dictionaries by their look-ups

A list of entries with distinct names is known by what it looks up, and a dictionary is such a list.
So a dictionary made from a list of entries does not depend on their order.
-/

namespace BeamEnvelope

variable {β : Type} {entries : List (String × β)} {n : String} {b : β}

theorem lookup_eq_some_iff_mem (h : (entries.map (·.1)).Nodup) :
    entries.lookup n = some b ↔ (n, b) ∈ entries := by
  induction entries with
  | nil => simp
  | cons entry rest ih =>
    obtain ⟨m, c⟩ := entry
    obtain ⟨hm, hrest⟩ := List.nodup_cons.1 h
    by_cases hn : n = m
    · subst hn
      have hb : (n, b) ∉ rest := fun hmem => hm (List.mem_map.2 ⟨_, hmem, rfl⟩)
      simp [hb, eq_comm]
    · have hne : (n == m) = false := by simpa using hn
      simp [List.lookup_cons, hne, ih hrest, hn]

theorem lookup_eq_none_iff_not_mem : entries.lookup n = none ↔ n ∉ entries.map (·.1) := by
  rw [List.lookup_eq_none_iff]
  simp only [List.mem_map, not_exists, not_and, bne_iff_ne, ne_eq]
  exact ⟨fun h p hp hn => h p hp hn.symm, fun h p hp hn => h p hp hn.symm⟩

theorem lookup_reverse (h : (entries.map (·.1)).Nodup) :
    entries.reverse.lookup n = entries.lookup n := by
  have hrev : (entries.reverse.map (·.1)).Nodup := by
    rw [List.map_reverse]
    exact List.nodup_reverse.2 h
  apply Option.ext
  intro b
  rw [lookup_eq_some_iff_mem hrev, lookup_eq_some_iff_mem h, List.mem_reverse]

theorem lookup_swap {front behind : List (String × β)} {x y : String × β} (h : x.1 ≠ y.1)
    (n : String) :
    (front ++ x :: y :: behind).lookup n = (front ++ y :: x :: behind).lookup n := by
  obtain ⟨m, b⟩ := x
  obtain ⟨m', c⟩ := y
  rw [List.lookup_append, List.lookup_append]
  congr 1
  simp only [List.lookup_cons]
  by_cases hm : n = m
  · subst hm
    have hm' : (n == m') = false := beq_eq_false_iff_ne.2 h
    rw [hm', beq_self_eq_true]
  · rw [beq_eq_false_iff_ne.2 hm]

/-- The names of the entries that a function keeps. -/
theorem nodup_filterMap {γ : Type} (f : β → Option γ) (h : (entries.map (·.1)).Nodup) :
    ((entries.filterMap fun entry => (f entry.2).map (entry.1, ·)).map (·.1)).Nodup := by
  refine h.sublist ?_
  clear h
  induction entries with
  | nil => simp
  | cons entry rest ih =>
    rw [List.filterMap_cons, List.map_cons]
    cases f entry.2 with
    | none => exact ih.cons _
    | some c => exact ih.cons_cons _

namespace Dictionary

variable {d e : Dictionary β}

theorem nodup_names (d : Dictionary β) : (d.entries.map (·.1)).Nodup := by
  rw [List.Nodup, List.pairwise_map]
  exact d.sorted.imp fun {a b} h (heq : a.1 = b.1) => String.lt_irrefl b.1 (heq ▸ h)

theorem get?_eq_some_iff_mem : d.get? n = some b ↔ (n, b) ∈ d.entries :=
  lookup_eq_some_iff_mem d.nodup_names

theorem ext_get? (h : ∀ n, d.get? n = e.get? n) : d = e := by
  have : Std.Irrefl fun a b : String × β => a.1 < b.1 := ⟨fun a => String.lt_irrefl a.1⟩
  have : Std.Antisymm fun a b : String × β => a.1 < b.1 :=
    ⟨fun a b h h' => absurd (String.lt_trans h h') (String.lt_irrefl a.1)⟩
  refine Dictionary.ext (d.sorted.eq_of_mem_iff e.sorted fun entry => ?_)
  rw [← get?_eq_some_iff_mem, ← get?_eq_some_iff_mem, h]

theorem contains_eq_false : d.contains n = false ↔ d.get? n = none := by
  simp [contains]

theorem contains_iff_mem : d.contains n = true ↔ n ∈ d.entries.map (·.1) := by
  rw [← not_iff_not, Bool.not_eq_true, contains_eq_false]
  exact lookup_eq_none_iff_not_mem

theorem get?_foldl_insert (entries : List (String × β)) (d : Dictionary β) (n : String) :
    (entries.foldl (fun d entry => d.insert entry.1 entry.2) d).get? n =
      (entries.reverse.lookup n).or (d.get? n) := by
  induction entries generalizing d with
  | nil => simp
  | cons entry rest ih =>
    obtain ⟨m, b⟩ := entry
    rw [List.foldl_cons, ih, get?_insert, List.reverse_cons, List.lookup_append]
    cases rest.reverse.lookup n with
    | some b => rfl
    | none =>
      by_cases hn : n = m
      · simp [hn]
      · have hne : (n == m) = false := by simpa using hn
        simp [List.lookup_cons, hn, hne]

theorem get?_ofList (entries : List (String × β)) (n : String) :
    (ofList entries).get? n = entries.reverse.lookup n := by
  rw [ofList, get?_foldl_insert, get?_empty, Option.or_none]

theorem mem_of_mem_ofList {entries : List (String × β)} {entry : String × β}
    (h : entry ∈ (ofList entries).entries) : entry ∈ entries := by
  obtain ⟨n, b⟩ := entry
  have hlookup := get?_eq_some_iff_mem.2 h
  rw [get?_ofList] at hlookup
  obtain ⟨front, behind, hentries, -⟩ := List.lookup_eq_some_iff.1 hlookup
  rw [← List.mem_reverse, hentries]
  exact List.mem_append_right _ List.mem_cons_self

theorem ofList_reverse (h : (entries.map (·.1)).Nodup) : ofList entries.reverse = ofList entries :=
  ext_get? fun n => by rw [get?_ofList, get?_ofList, List.reverse_reverse, lookup_reverse h]

theorem ofList_swap {front behind : List (String × β)} {x y : String × β} (h : x.1 ≠ y.1) :
    ofList (front ++ x :: y :: behind) = ofList (front ++ y :: x :: behind) := by
  refine ext_get? fun n => ?_
  have hswap : (behind.reverse ++ y :: x :: front.reverse).lookup n =
      (behind.reverse ++ x :: y :: front.reverse).lookup n := lookup_swap h.symm n
  rw [get?_ofList, get?_ofList]
  simpa using hswap

theorem ofList_entries (d : Dictionary β) : ofList d.entries = d :=
  ext_get? fun n => by rw [get?_ofList, lookup_reverse d.nodup_names, get?]

end Dictionary

end BeamEnvelope
