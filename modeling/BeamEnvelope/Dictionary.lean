/-!
# Dictionaries

A dictionary maps finitely many names to values. It keeps its entries in increasing order of the
names, so two dictionaries with the same entries are equal and every listing of one is sorted.
-/

namespace BeamEnvelope

structure Dictionary (β : Type) where
  entries : List (String × β)
  sorted : entries.Pairwise fun a b => a.1 < b.1

namespace Dictionary

variable {β : Type}

@[ext] theorem ext {d e : Dictionary β} (h : d.entries = e.entries) : d = e := by
  cases d; cases e; cases h; rfl

def empty : Dictionary β := ⟨[], .nil⟩

instance : EmptyCollection (Dictionary β) := ⟨empty⟩
instance : Inhabited (Dictionary β) := ⟨empty⟩

instance [BEq β] : BEq (Dictionary β) := ⟨fun d e => d.entries == e.entries⟩

def isEmpty (d : Dictionary β) : Bool := d.entries.isEmpty

def get? (d : Dictionary β) (name : String) : Option β := d.entries.lookup name

def contains (d : Dictionary β) (name : String) : Bool := (d.get? name).isSome

/-- Puts an entry where its name belongs, in place of an older entry of that name. -/
def insertSorted (name : String) (value : β) : List (String × β) → List (String × β)
  | [] => [(name, value)]
  | (key, old) :: rest =>
    if name < key then (name, value) :: (key, old) :: rest
    else if name = key then (name, value) :: rest
    else (key, old) :: insertSorted name value rest

theorem mem_insertSorted {name : String} {value : β} {entries : List (String × β)}
    {entry : String × β} (h : entry ∈ insertSorted name value entries) :
    entry = (name, value) ∨ entry ∈ entries := by
  induction entries with
  | nil => simpa [insertSorted] using h
  | cons head rest ih =>
    obtain ⟨key, old⟩ := head
    simp only [insertSorted] at h
    split at h
    · simpa using h
    · split at h
      · rcases List.mem_cons.1 h with h | h
        · exact .inl h
        · exact .inr (List.mem_cons_of_mem _ h)
      · rcases List.mem_cons.1 h with h | h
        · exact .inr (h ▸ List.mem_cons_self)
        · exact (ih h).imp id (List.mem_cons_of_mem _)

private theorem lt_of_not_lt_of_ne {a b : String} (h : ¬ a < b) (hne : a ≠ b) : b < a :=
  (Std.lt_trichotomy a b).elim (fun hlt => absurd hlt h)
    fun rest => rest.elim (fun heq => absurd heq hne) id

theorem pairwise_insertSorted {name : String} {value : β} {entries : List (String × β)}
    (h : entries.Pairwise fun a b => a.1 < b.1) :
    (insertSorted name value entries).Pairwise fun a b => a.1 < b.1 := by
  induction entries with
  | nil => simp [insertSorted]
  | cons head rest ih =>
    obtain ⟨key, old⟩ := head
    have hrest := List.pairwise_cons.1 h
    simp only [insertSorted]
    split
    · rename_i hlt
      refine List.pairwise_cons.2 ⟨fun entry hmem => ?_, h⟩
      rcases List.mem_cons.1 hmem with rfl | hmem
      · exact hlt
      · exact String.lt_trans hlt (hrest.1 entry hmem)
    · rename_i hlt
      split
      · rename_i heq
        subst heq
        exact List.pairwise_cons.2 ⟨hrest.1, hrest.2⟩
      · rename_i hne
        refine List.pairwise_cons.2 ⟨fun entry hmem => ?_, ih hrest.2⟩
        rcases mem_insertSorted hmem with rfl | hmem
        · exact lt_of_not_lt_of_ne hlt hne
        · exact hrest.1 entry hmem

def insert (d : Dictionary β) (name : String) (value : β) : Dictionary β :=
  ⟨insertSorted name value d.entries, pairwise_insertSorted d.sorted⟩

/-- Later entries replace earlier ones of the same name. -/
def ofList (entries : List (String × β)) : Dictionary β :=
  entries.foldl (fun d entry => d.insert entry.1 entry.2) ∅

private theorem lookup_cons_of_ne {key name : String} (h : key ≠ name) (value : β)
    (entries : List (String × β)) :
    ((name, value) :: entries).lookup key = entries.lookup key := by
  have hb : (key == name) = false := by simpa using h
  rw [List.lookup_cons, hb]

private theorem lookup_insertSorted (name key : String) (value : β)
    (entries : List (String × β)) :
    (insertSorted name value entries).lookup key =
      if key = name then some value else entries.lookup key := by
  induction entries with
  | nil =>
    by_cases hk : key = name
    · simp [insertSorted, hk]
    · simp [insertSorted, lookup_cons_of_ne hk, hk]
  | cons head rest ih =>
    obtain ⟨other, old⟩ := head
    simp only [insertSorted]
    split
    · by_cases hk : key = name
      · simp [hk]
      · simp [lookup_cons_of_ne hk, hk]
    · split
      · rename_i heq
        subst heq
        by_cases hk : key = name
        · simp [hk]
        · simp [lookup_cons_of_ne hk, hk]
      · rename_i hne
        by_cases hk : key = other
        · subst hk
          simp [Ne.symm hne]
        · rw [lookup_cons_of_ne hk, lookup_cons_of_ne hk, ih]

theorem get?_insert (d : Dictionary β) (name key : String) (value : β) :
    (d.insert name value).get? key = if key = name then some value else d.get? key :=
  lookup_insertSorted name key value d.entries

@[simp] theorem get?_empty (name : String) : (∅ : Dictionary β).get? name = none := rfl

end Dictionary

end BeamEnvelope
