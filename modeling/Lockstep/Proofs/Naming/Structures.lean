import Lockstep.Proofs.Naming.Numbering
import Mathlib.Data.List.Induction
import Mathlib.Data.List.Nodup
import Mathlib.Data.List.Pairwise
/-!
The first pass of resolution. Structures and their fields are numbered in the order of the items, and
a name of a type is entered when the item that defines it is reached. So an alias, or a field of a
structure, knows the structure of its own type only if that was defined further up.
-/

set_option autoImplicit false
set_option relaxedAutoImplicit false

namespace Lockstep

def StructDef.names (d : StructDef) : List String := (d.tag.toList ++ d.aka.toList).map Ident.name

def StructDef.title (d : StructDef) : String :=
  ((d.aka <|> d.tag).map Ident.name).getD "<anonymous struct>"

namespace Item

def struct? : Item → Option StructDef
  | struct d => some d
  | _ => none

def fields : Item → List Field
  | struct d => d.fields
  | _ => []

def typeNames : Item → List String
  | struct d => d.names
  | typedef d => [d.aka.name]
  | function _ | global _ => []

end Item

def structCount (items : List Item) : Nat := (items.filterMap Item.struct?).length

def fieldCount (items : List Item) : Nat := (items.flatMap Item.fields).length

def TypeName.ident : TypeName → Ident
  | named id => id
  | struct tag => tag

namespace Scope

def fieldInfo (s : Scope) (owner : String) (f : Field) : FieldInfo :=
  ⟨f.name.name, some owner, some f.name.span, s.structOfType f.ty⟩

theorem structOfType_eq (s : Scope) (ty : TypeSpec) :
    s.structOfType ty = s.structNames.lookup ty.name.ident.name := by
  unfold structOfType
  cases ty.name <;> rfl

section Fields

variable {s : Scope} {front : List StructInfo} {info : StructInfo} {owner : String}

private theorem foldl_addField (fs : List Field) (here : s.tables.structs = front ++ [info]) :
    (fs.foldl (addField front.length owner) s).structNames = s.structNames ∧
    (fs.foldl (addField front.length owner) s).tables.structs = front ++ [⟨info.name, info.fields ++
      (fs.zipIdx (s.counters.next .field)).map fun p => (p.1.name.name, p.2)⟩] ∧
    (fs.foldl (addField front.length owner) s).tables.fields =
      s.tables.fields ++ fs.map (s.fieldInfo owner) := by
  induction fs generalizing s info with
  | nil => simp [here]
  | cons f fs ih =>
    have next : (addField front.length owner s f).tables.structs = front ++ [⟨info.name,
        info.fields ++ [(f.name.name, s.counters.next .field)]⟩] := by
      simp [addField, here, List.modify_eq_take_drop]
    have same : (addField front.length owner s f).fieldInfo owner = s.fieldInfo owner := rfl
    obtain ⟨names, structs, fields⟩ := ih next
    rw [List.foldl_cons, names, structs, fields, same]
    refine ⟨rfl, ?_, ?_⟩
    · simp [addField, List.zipIdx_cons]
    · simp [addField, fieldInfo]

end Fields

section Collect

variable (s : Scope) (d : StructDef)

def openStruct : Scope :=
  { s with
    structNames := (d.names.map fun n => (n, s.tables.structs.length)).reverse ++ s.structNames
    tables := { s.tables with structs := s.tables.structs ++ [⟨d.title, []⟩] } }

private theorem structs_openStruct :
    (s.openStruct d).tables.structs = s.tables.structs ++ [⟨d.title, []⟩] := rfl

private theorem addStruct_eq : s.addStruct d =
    d.fields.foldl (addField s.tables.structs.length d.title) (s.openStruct d) := by
  simp only [addStruct, openStruct, StructDef.names, StructDef.title, List.map_map]
  rfl

theorem structNames_addStruct : (s.addStruct d).structNames =
    (d.names.map fun n => (n, s.tables.structs.length)).reverse ++ s.structNames := by
  rw [addStruct_eq]
  exact (foldl_addField d.fields (s.structs_openStruct d)).1

theorem structs_addStruct : (s.addStruct d).tables.structs = s.tables.structs ++ [⟨d.title,
    (d.fields.zipIdx (s.counters.next .field)).map fun p => (p.1.name.name, p.2)⟩] := by
  rw [addStruct_eq]
  exact (foldl_addField d.fields (s.structs_openStruct d)).2.1

theorem fields_addStruct : (s.addStruct d).tables.fields =
    s.tables.fields ++ d.fields.map ((s.addStruct d).fieldInfo d.title) := by
  have names : (s.addStruct d).structNames = (s.openStruct d).structNames :=
    s.structNames_addStruct d
  have same : (s.addStruct d).fieldInfo d.title = (s.openStruct d).fieldInfo d.title := by
    funext f
    simp only [fieldInfo, structOfType_eq, names]
  rw [same, addStruct_eq]
  exact (foldl_addField d.fields (s.structs_openStruct d)).2.2

end Collect

theorem laidOut_concat (items : List Item) (item : Item) :
    laidOut (items ++ [item]) = (laidOut items).collect item := List.foldl_concat ..

section Growth

theorem prefix_collect (s : Scope) (item : Item) :
    s.tables.structs <+: (s.collect item).tables.structs ∧
      s.tables.fields <+: (s.collect item).tables.fields := by
  cases item with
  | struct d =>
    rw [collect, structs_addStruct, fields_addStruct]
    exact ⟨List.prefix_append .., List.prefix_append ..⟩
  | typedef t =>
    simp only [collect]
    split <;> exact ⟨List.prefix_rfl, List.prefix_rfl⟩
  | function f =>
    obtain ⟨counters, functions, same⟩ := s.addFunction_eq f
    rw [collect, same]
    exact ⟨List.prefix_rfl, List.prefix_rfl⟩
  | global d => exact ⟨List.prefix_rfl, List.prefix_rfl⟩

private theorem prefix_laidOut (pre post : List Item) :
    (laidOut pre).tables.structs <+: (laidOut (pre ++ post)).tables.structs ∧
      (laidOut pre).tables.fields <+: (laidOut (pre ++ post)).tables.fields := by
  induction post using List.reverseRecOn with
  | nil =>
    rw [List.append_nil]
    exact ⟨List.prefix_rfl, List.prefix_rfl⟩
  | append_singleton post item ih =>
    obtain ⟨structs, fields⟩ := prefix_collect (laidOut (pre ++ post)) item
    rw [← List.append_assoc, laidOut_concat]
    exact ⟨ih.1.trans structs, ih.2.trans fields⟩

theorem length_laidOut (items : List Item) :
    (laidOut items).tables.structs.length = structCount items ∧
      (laidOut items).tables.fields.length = fieldCount items := by
  induction items using List.reverseRecOn with
  | nil => exact ⟨rfl, rfl⟩
  | append_singleton items item ih =>
    have structs :
        structCount (items ++ [item]) = structCount items + item.struct?.toList.length := by
      simp [structCount, List.filterMap_append, List.filterMap_cons]
      cases item.struct? <;> rfl
    have fields : fieldCount (items ++ [item]) = fieldCount items + item.fields.length := by
      simp [fieldCount]
    rw [laidOut_concat, structs, fields, ← ih.1, ← ih.2]
    cases item with
    | struct d =>
      rw [collect, structs_addStruct, fields_addStruct]
      simp [Item.struct?, Item.fields]
    | typedef t =>
      simp only [collect]
      split <;> exact ⟨rfl, rfl⟩
    | function f =>
      obtain ⟨counters, functions, same⟩ := (laidOut items).addFunction_eq f
      rw [collect, same]
      exact ⟨rfl, rfl⟩
    | global d => exact ⟨rfl, rfl⟩

theorem next_field_laidOut (items : List Item) :
    (laidOut items).counters.next .field = fieldCount items := by
  rw [(inStep_laidOut items).fields]
  exact (length_laidOut items).2

end Growth

section Entries

variable {pre post : List Item} {d : StructDef}

private theorem prefix_laidOut_struct (pre post : List Item) (d : StructDef) :
    (laidOut (pre ++ [Item.struct d])).tables.structs <+:
        (laidOut (pre ++ Item.struct d :: post)).tables.structs ∧
      (laidOut (pre ++ [Item.struct d])).tables.fields <+:
        (laidOut (pre ++ Item.struct d :: post)).tables.fields := by
  have more := prefix_laidOut (pre ++ [Item.struct d]) post
  rwa [List.append_assoc, List.singleton_append] at more

theorem structs_laidOut (pre post : List Item) (d : StructDef) :
    (laidOut (pre ++ Item.struct d :: post)).tables.structs[structCount pre]? = some ⟨d.title,
      (d.fields.zipIdx (fieldCount pre)).map fun p => (p.1.name.name, p.2)⟩ := by
  have length := (length_laidOut pre).1
  obtain ⟨rest, more⟩ := (prefix_laidOut_struct pre post d).1
  rw [← more, laidOut_concat, collect, structs_addStruct, next_field_laidOut, List.append_assoc,
    List.getElem?_append_right (Nat.le_of_eq length), length, Nat.sub_self]
  rfl

theorem fields_laidOut {j : Nat} {f : Field} (pre post : List Item) (here : d.fields[j]? = some f) :
    (laidOut (pre ++ Item.struct d :: post)).tables.fields[fieldCount pre + j]? =
      some ((laidOut (pre ++ [Item.struct d])).fieldInfo d.title f) := by
  have length := (length_laidOut pre).2
  obtain ⟨rest, more⟩ := (prefix_laidOut_struct pre post d).2
  have short : j < d.fields.length := (List.getElem?_eq_some_iff.mp here).1
  rw [← more, laidOut_concat, collect, fields_addStruct, List.append_assoc,
    List.getElem?_append_right (by omega), length, Nat.add_sub_cancel_left,
    List.getElem?_append_left (by simpa using short), List.getElem?_map, here]
  rfl

end Entries

end Scope

def typeNames (items : List Item) : List String := items.flatMap Item.typeNames

private theorem typeNames_append (pre post : List Item) :
    typeNames (pre ++ post) = typeNames pre ++ typeNames post := List.flatMap_append

private theorem eq_of_mem_typeNames {items : List Item} {x y : Item} {n : String}
    (distinct : (typeNames items).Nodup) (left : x ∈ items) (right : y ∈ items)
    (own : n ∈ x.typeNames) (own' : n ∈ y.typeNames) : x = y := by
  by_contra different
  have symmetric : Std.Symm (Function.onFun List.Disjoint Item.typeNames) :=
    ⟨fun _ _ apart _ left right => apart right left⟩
  exact (List.nodup_flatMap.mp distinct).2.forall left right different own own'

namespace Scope

private theorem lookup_entries (n : String) (ns : List String) (k : Nat) :
    (ns.map fun n => (n, k)).reverse.lookup n = if n ∈ ns then some k else none := by
  induction ns using List.reverseRecOn with
  | nil => rfl
  | append_singleton ns m ih =>
    rw [List.map_append, List.reverse_append, List.map_singleton, List.reverse_singleton,
      List.singleton_append, List.lookup_cons, ih]
    by_cases same : n = m
    · simp [same]
    · have different : (n == m) = false := by simpa using same
      simp [same, different]

private theorem lookup_collect {s : Scope} {item : Item} {n : String} (other : n ∉ item.typeNames) :
    (s.collect item).structNames.lookup n = s.structNames.lookup n := by
  cases item with
  | struct d =>
    have different : n ∉ d.names := other
    rw [collect, structNames_addStruct, List.lookup_append, lookup_entries, if_neg different]
    rfl
  | typedef t =>
    have different : (n == t.aka.name) = false := by simpa [Item.typeNames] using other
    simp only [collect]
    split
    · rw [List.lookup_cons, different]
    · rfl
  | function f =>
    obtain ⟨counters, functions, same⟩ := s.addFunction_eq f
    rw [collect, same]
  | global d => rfl

private theorem lookup_laidOut {n : String} (pre : List Item) {post : List Item}
    (other : n ∉ typeNames post) :
    (laidOut (pre ++ post)).structNames.lookup n = (laidOut pre).structNames.lookup n := by
  induction post using List.reverseRecOn with
  | nil => rw [List.append_nil]
  | append_singleton post item ih =>
    rw [typeNames_append, List.mem_append, not_or] at other
    have own : n ∉ item.typeNames := by simpa [typeNames] using other.2
    rw [← List.append_assoc, laidOut_concat, lookup_collect own, ih other.1]

private theorem exists_of_lookup_laidOut {n : String} {k : Nat} (items : List Item)
    (found : (laidOut items).structNames.lookup n = some k) :
    (∃ d, .struct d ∈ items ∧ n ∈ d.names) ∨
      ∃ pre t post, items = pre ++ Item.typedef t :: post ∧ t.aka.name = n ∧
        (laidOut pre).structNames.lookup t.ty.name.ident.name = some k := by
  induction items using List.reverseRecOn with
  | nil => cases found
  | append_singleton items item ih =>
    -- What an item in front defines it still defines.
    have front (found : (laidOut items).structNames.lookup n = some k) :
        (∃ d, .struct d ∈ items ++ [item] ∧ n ∈ d.names) ∨
          ∃ pre t post, items ++ [item] = pre ++ Item.typedef t :: post ∧ t.aka.name = n ∧
            (laidOut pre).structNames.lookup t.ty.name.ident.name = some k := by
      rcases ih found with ⟨d, listed, named⟩ | ⟨pre, t, post, rfl, named, below⟩
      · exact .inl ⟨d, List.mem_append_left _ listed, named⟩
      · exact .inr ⟨pre, t, post ++ [item], by simp, named, below⟩
    by_cases own : n ∈ item.typeNames
    · rw [laidOut_concat] at found
      cases item with
      | struct d => exact .inl ⟨d, by simp, own⟩
      | typedef t =>
        have named : t.aka.name = n := (List.mem_singleton.mp own).symm
        simp only [collect] at found
        split at found
        · rename_i index known
          rw [named, List.lookup_cons_self, Option.some.injEq] at found
          rw [structOfType_eq, found] at known
          exact .inr ⟨items, t, [], rfl, named, known⟩
        · exact front found
      | function f => cases own
      | global d => cases own
    · rw [laidOut_concat, lookup_collect own] at found
      exact front found

end Scope

/-- The structure that the name of a type stands for, wherever among the items that is defined. -/
inductive Denotes (items : List Item) : TypeName → StructDef → Prop where
  | tag {d : StructDef} {id : Ident} (listed : .struct d ∈ items)
      (tagged : d.tag.map Ident.name = some id.name) : Denotes items (.struct id) d
  | aka {d : StructDef} {id : Ident} (listed : .struct d ∈ items)
      (named : d.aka.map Ident.name = some id.name) : Denotes items (.named id) d
  | typedef {d : StructDef} {id : Ident} {t : Typedef} (listed : .typedef t ∈ items)
      (named : t.aka.name = id.name) (below : Denotes items t.ty.name d) :
      Denotes items (.named id) d

/-- The structure that the name of a type stands for, if each alias stands behind what it is an
alias of. -/
inductive Known : List Item → TypeName → StructDef → Prop where
  | tag {items : List Item} {d : StructDef} {id : Ident} (listed : .struct d ∈ items)
      (tagged : d.tag.map Ident.name = some id.name) : Known items (.struct id) d
  | aka {items : List Item} {d : StructDef} {id : Ident} (listed : .struct d ∈ items)
      (named : d.aka.map Ident.name = some id.name) : Known items (.named id) d
  | typedef {pre post : List Item} {d : StructDef} {id : Ident} {t : Typedef}
      (named : t.aka.name = id.name) (below : Known pre t.ty.name d) :
      Known (pre ++ Item.typedef t :: post) (.named id) d

private theorem StructDef.mem_names_of_tag {d : StructDef} {n : String}
    (tagged : d.tag.map Ident.name = some n) : n ∈ d.names := by
  obtain ⟨id, tag, rfl⟩ := Option.map_eq_some_iff.mp tagged
  simp [names, tag]

private theorem StructDef.mem_names_of_aka {d : StructDef} {n : String}
    (named : d.aka.map Ident.name = some n) : n ∈ d.names := by
  obtain ⟨id, aka, rfl⟩ := Option.map_eq_some_iff.mp named
  simp [names, aka]

section Lookup

open Scope

variable {items pre post seen : List Item} {ty : TypeName} {d : StructDef} {n : String} {k : Nat}

private theorem lookup_of_mem_names (distinct : (typeNames (pre ++ Item.struct d :: post)).Nodup)
    (own : n ∈ d.names) :
    (laidOut (pre ++ Item.struct d :: post)).structNames.lookup n = some (structCount pre) := by
  have split : pre ++ Item.struct d :: post = (pre ++ [Item.struct d]) ++ post := by simp
  rw [split, typeNames_append, typeNames_append] at distinct
  have later : n ∉ typeNames post := by
    intro again
    exact (List.nodup_append.mp distinct).2.2 n
      (List.mem_append_right _ (by simpa [typeNames, Item.typeNames] using own)) n again rfl
  rw [split, lookup_laidOut _ later, laidOut_concat, collect, structNames_addStruct,
    List.lookup_append, lookup_entries, if_pos own, (length_laidOut pre).1]
  rfl

theorem Known.lookup (known : Known items ty d) (distinct : (typeNames items).Nodup) :
    ∃ pre post, items = pre ++ Item.struct d :: post ∧
      (laidOut items).structNames.lookup ty.ident.name = some (structCount pre) := by
  induction known with
  | tag listed tagged =>
    obtain ⟨pre, post, rfl⟩ := List.append_of_mem listed
    exact ⟨pre, post, rfl, lookup_of_mem_names distinct (StructDef.mem_names_of_tag tagged)⟩
  | aka listed named =>
    obtain ⟨pre, post, rfl⟩ := List.append_of_mem listed
    exact ⟨pre, post, rfl, lookup_of_mem_names distinct (StructDef.mem_names_of_aka named)⟩
  | @typedef front back d id t named below ih =>
    have split : front ++ Item.typedef t :: back = (front ++ [Item.typedef t]) ++ back := by simp
    rw [split, typeNames_append, typeNames_append] at distinct
    have parts := List.nodup_append.mp distinct
    obtain ⟨pre, post, rfl, found⟩ := ih (List.nodup_append.mp parts.1).1
    have later : t.aka.name ∉ typeNames back := by
      intro again
      exact parts.2.2 _ (List.mem_append_right _ (by simp [typeNames, Item.typeNames])) _ again rfl
    refine ⟨pre, post ++ Item.typedef t :: back, by simp, ?_⟩
    rw [TypeName.ident, ← named, split, lookup_laidOut _ later, laidOut_concat]
    rw [← structOfType_eq] at found
    simp only [collect, found, List.lookup_cons_self]

private theorem mem_of_lookup (distinct : (typeNames items).Nodup) (within : seen ⊆ items)
    (listed : .struct d ∈ items) (own : n ∈ d.names)
    (found : (laidOut seen).structNames.lookup n = some k) : .struct d ∈ seen := by
  have defines : n ∈ (Item.struct d).typeNames := own
  rcases exists_of_lookup_laidOut seen found with ⟨d', member, named⟩ | ⟨pre, t, post, rfl, rfl, -⟩
  · cases eq_of_mem_typeNames distinct listed (within member) defines named
    exact member
  · have other : Item.typedef t ∈ items := within (by simp)
    cases eq_of_mem_typeNames distinct listed other defines (List.mem_singleton_self _)

private theorem Denotes.known_of_lookup (denotes : Denotes items ty d)
    (distinct : (typeNames items).Nodup)
    (within : seen ⊆ items) (found : (laidOut seen).structNames.lookup ty.ident.name = some k) :
    Known seen ty d := by
  induction denotes generalizing seen k with
  | tag listed tagged =>
    exact .tag (mem_of_lookup distinct within listed (StructDef.mem_names_of_tag tagged) found)
      tagged
  | aka listed named =>
    exact .aka (mem_of_lookup distinct within listed (StructDef.mem_names_of_aka named) found) named
  | @typedef d id t listed named below ih =>
    have own : id.name ∈ (Item.typedef t).typeNames := by simp [Item.typeNames, named]
    rcases exists_of_lookup_laidOut seen found with
      ⟨d', member, again⟩ | ⟨pre, t', post, rfl, again, known⟩
    · cases eq_of_mem_typeNames distinct listed (within member) own again
    · -- The alias was reached behind its type, so the type is known there.
      have other : Item.typedef t' ∈ items := within (by simp)
      have own' : id.name ∈ (Item.typedef t').typeNames := List.mem_singleton.mpr again.symm
      cases eq_of_mem_typeNames distinct listed other own own'
      exact .typedef named (ih (List.Subset.trans (List.subset_append_left ..) within) known)

private theorem Denotes.exists_name (denotes : Denotes items ty d) :
    .struct d ∈ items ∧ ∃ n, n ∈ d.names := by
  induction denotes with
  | tag listed tagged => exact ⟨listed, _, StructDef.mem_names_of_tag tagged⟩
  | aka listed named => exact ⟨listed, _, StructDef.mem_names_of_aka named⟩
  | typedef _ _ _ ih => exact ih

theorem Denotes.lookup_cases (denotes : Denotes (pre ++ Item.struct d :: post) ty d)
    (distinct : (typeNames (pre ++ Item.struct d :: post)).Nodup)
    (start : seen <+: pre ++ Item.struct d :: post) :
    Known seen ty d ∧ (laidOut seen).structNames.lookup ty.ident.name = some (structCount pre) ∨
      ¬ Known seen ty d ∧ (laidOut seen).structNames.lookup ty.ident.name = none := by
  by_cases known : Known seen ty d
  · obtain ⟨rest, split⟩ := start
    rw [← split, typeNames_append] at distinct
    obtain ⟨pre', post', same, found⟩ := known.lookup (List.nodup_append.mp distinct).1
    rw [← typeNames_append, split] at distinct
    -- The structure has one place among the items, where its names are entered.
    obtain ⟨-, n, own⟩ := denotes.exists_name
    have here := lookup_of_mem_names distinct own
    have again : pre ++ Item.struct d :: post = pre' ++ Item.struct d :: (post' ++ rest) := by
      rw [← split, same]
      simp
    rw [again] at distinct here
    rw [lookup_of_mem_names distinct own] at here
    rw [found, Option.some.inj here]
    exact .inl ⟨known, rfl⟩
  · refine .inr ⟨known, Option.eq_none_iff_forall_ne_some.mpr fun k found => known ?_⟩
    exact denotes.known_of_lookup distinct start.subset found

end Lookup

end Lockstep
