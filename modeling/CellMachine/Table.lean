/-!
# Tables in insertion order

A table maps names to values and keeps its entries in the order in which their names were first
inserted. Inserting a name that is present changes its value in place. Names that are not present,
and differ from each other, can be entered one after the other (`Admits`), and then stand after the
entries that were there (`extend`).
-/

namespace CellMachine

/-- Entries in the order of first insertion. -/
structure Table (α : Type) where
  entries : List (String × α) := []
  deriving DecidableEq, Repr

namespace Table

variable {α : Type}

def empty : Table α := ⟨[]⟩

/-- The value of a name. -/
def find? (t : Table α) (name : String) : Option α := t.entries.lookup name

def contains (t : Table α) (name : String) : Bool := (t.find? name).isSome

/-- The entries with the value of `name` set; a new name comes last. -/
def insertEntry (name : String) (value : α) : List (String × α) → List (String × α)
  | [] => [(name, value)]
  | (n, v) :: rest =>
    if n = name then (n, value) :: rest else (n, v) :: insertEntry name value rest

def insert (t : Table α) (name : String) (value : α) : Table α :=
  ⟨insertEntry name value t.entries⟩

/-- The table of a list of entries; of two entries for one name the later value counts. -/
def ofList (entries : List (String × α)) : Table α :=
  entries.foldl (fun t (name, value) => t.insert name value) empty

@[simp] theorem find?_empty (name : String) : (empty : Table α).find? name = none := rfl

theorem find?_eq_none_iff {t : Table α} {name : String} :
    t.find? name = none ↔ name ∉ t.entries.map Prod.fst := by
  rw [find?, List.lookup_eq_none_iff]
  constructor
  · intro h hmem
    obtain ⟨e, he, rfl⟩ := List.mem_map.mp hmem
    simpa using h e he
  · intro h e he
    exact bne_iff_ne.mpr fun heq => h (List.mem_map.mpr ⟨e, he, heq.symm⟩)

theorem mem_entries_of_find? {t : Table α} {name : String} {value : α}
    (h : t.find? name = some value) : (name, value) ∈ t.entries := by
  obtain ⟨front, back, hsplit, -⟩ := List.lookup_eq_some_iff.mp h
  rw [hsplit]
  exact List.mem_append_right _ List.mem_cons_self

/-- In a table whose names differ, a name has the value it stands beside. -/
theorem find?_eq_some_iff {t : Table α} (hnames : (t.entries.map Prod.fst).Nodup)
    {name : String} {value : α} : t.find? name = some value ↔ (name, value) ∈ t.entries := by
  refine ⟨mem_entries_of_find?, fun hmem => List.lookup_eq_some_iff.mpr ?_⟩
  obtain ⟨front, back, hsplit⟩ := List.append_of_mem hmem
  refine ⟨front, back, hsplit, fun e he => bne_iff_ne.mpr ?_⟩
  -- an entry of that name further in front would be a second one
  rw [hsplit, List.map_append, List.map_cons] at hnames
  exact ((List.nodup_append.mp hnames).2.2 e.1 (List.mem_map_of_mem he) name
    List.mem_cons_self).symm

/-! ### Entries with new names -/

/-- The table with more entries after its own. -/
def extend (t : Table α) (more : List (String × α)) : Table α := ⟨t.entries ++ more⟩

@[simp] theorem extend_nil (t : Table α) : t.extend [] = t := by
  rw [extend, List.append_nil]

theorem extend_extend (t : Table α) (more more' : List (String × α)) :
    (t.extend more).extend more' = t.extend (more ++ more') := by
  rw [extend, extend, extend, List.append_assoc]

theorem find?_extend (t : Table α) (more : List (String × α)) (name : String) :
    (t.extend more).find? name = (t.find? name).or (find? ⟨more⟩ name) :=
  List.lookup_append

/-- A name that is not present comes last. -/
theorem insert_eq_extend {t : Table α} {name : String} (h : t.find? name = none) (value : α) :
    t.insert name value = t.extend [(name, value)] := by
  obtain ⟨entries⟩ := t
  rw [find?_eq_none_iff] at h
  simp only [insert, extend, Table.mk.injEq]
  induction entries with
  | nil => rfl
  | cons e rest ih =>
    rw [List.map_cons, List.mem_cons, not_or] at h
    rw [insertEntry, if_neg (Ne.symm h.1), ih h.2, List.cons_append]

/-- Names can be entered one after the other: they differ, and none is present. -/
def Admits (t : Table α) (names : List String) : Prop :=
  names.Nodup ∧ ∀ name ∈ names, t.find? name = none

instance (t : Table α) (names : List String) : Decidable (t.Admits names) :=
  inferInstanceAs (Decidable (_ ∧ _))

theorem admits_nil (t : Table α) : t.Admits [] :=
  ⟨List.nodup_nil, fun _ h => absurd h List.not_mem_nil⟩

/-- Names can be entered into the empty table if they differ. -/
theorem admits_empty_iff {names : List String} : (empty : Table α).Admits names ↔ names.Nodup :=
  ⟨And.left, fun h => ⟨h, fun name _ => find?_empty name⟩⟩

theorem admits_perm {t : Table α} {names names' : List String} (h : names.Perm names') :
    t.Admits names ↔ t.Admits names' := by
  rw [Admits, Admits, h.nodup_iff]
  exact and_congr_right fun _ => forall_congr' fun name => imp_congr_left h.mem_iff

theorem find?_extend_eq_none_iff {t : Table α} {more : List (String × α)} {name : String} :
    (t.extend more).find? name = none ↔ t.find? name = none ∧ name ∉ more.map Prod.fst := by
  rw [find?_eq_none_iff, find?_eq_none_iff, extend, List.map_append, List.mem_append, not_or]

theorem admits_cons_iff {t : Table α} {name : String} {names : List String} (value : α) :
    t.Admits (name :: names) ↔ t.find? name = none ∧ (t.extend [(name, value)]).Admits names := by
  simp only [Admits, List.nodup_cons, List.forall_mem_cons, find?_extend_eq_none_iff, List.map_cons,
    List.map_nil, List.mem_singleton]
  constructor
  · rintro ⟨⟨hapart, hnames⟩, hname, hfresh⟩
    exact ⟨hname, hnames, fun n hn => ⟨hfresh n hn, fun h => hapart (h ▸ hn)⟩⟩
  · rintro ⟨hname, hnames, hfresh⟩
    exact ⟨⟨fun h => (hfresh name h).2 rfl, hnames⟩, hname, fun n hn => (hfresh n hn).1⟩

/-- Names are entered in two parts, the first of which is present at the second. -/
theorem admits_append_iff {t : Table α} {more : List (String × α)} {names : List String} :
    t.Admits (more.map Prod.fst ++ names) ↔
      t.Admits (more.map Prod.fst) ∧ (t.extend more).Admits names := by
  simp only [Admits, List.nodup_append, List.mem_append, find?_extend_eq_none_iff]
  constructor
  · rintro ⟨⟨hfront, hback, hdiffer⟩, hfresh⟩
    exact ⟨⟨hfront, fun n hn => hfresh n (Or.inl hn)⟩, hback,
      fun n hn => ⟨hfresh n (Or.inr hn), fun hn' => hdiffer n hn' n hn rfl⟩⟩
  · rintro ⟨⟨hfront, hfresh⟩, hback, hapart⟩
    refine ⟨⟨hfront, hback, ?_⟩, ?_⟩
    · rintro n hn m hm rfl
      exact (hapart n hm).2 hn
    · rintro n (hn | hn)
      · exact hfresh n hn
      · exact (hapart n hn).1

end Table

end CellMachine
