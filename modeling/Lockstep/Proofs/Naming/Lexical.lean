import Lockstep.Proofs.Naming.Scoping
/-!
Lexical scoping. In a source file whose names stand at different places, and whose declarations do,
the table of references leads from each name to the declaration that it stands for, and has no
entry for a name that no declaration before it, in a scope around it, offers.
-/

set_option autoImplicit false
set_option relaxedAutoImplicit false

namespace Lockstep

theorem lookup_eq_some_of_mem {l : List (Span × Nat)} {span : Span} {i : Nat}
    (single : ∀ j, (span, j) ∈ l → j = i) (member : (span, i) ∈ l) : l.lookup span = some i := by
  induction l with
  | nil => cases member
  | cons entry l ih =>
    obtain ⟨key, j⟩ := entry
    by_cases same : span = key
    · subst same
      rw [List.lookup_cons_self, single j List.mem_cons_self]
    · have later : (span, i) ∈ l := by
        refine (List.mem_cons.mp member).resolve_left fun first => ?_
        exact same (Prod.mk.inj first).1
      have different : (span == key) = false := by simpa using same
      rw [List.lookup_cons, different]
      exact ih (fun j inside => single j (List.mem_cons_of_mem _ inside)) later

private theorem lookup_eq_none_of_not_mem {l : List (Span × Nat)} {span : Span}
    (absent : ∀ i, (span, i) ∉ l) : l.lookup span = none := by
  rw [List.lookup_eq_none_iff]
  rintro ⟨key, i⟩ member
  have different : span ≠ key := by
    rintro rfl
    exact absent i member
  simpa using different

private theorem split_unique {α κ : Type} {f : α → Option κ} {early early' late late' : List α}
    {a a' : α} {key : κ} (distinct : ((early ++ a :: late).filterMap f).Nodup)
    (keyed : f a = some key) (keyed' : f a' = some key)
    (same : early ++ a :: late = early' ++ a' :: late') :
    early = early' ∧ a = a' ∧ late = late' := by
  -- Otherwise the key stands both before and behind some point between the two entries.
  have clash {x y : α} {first mid last : List α} (fx : f x = some key) (fy : f y = some key)
      (nodup : ((first ++ x :: (mid ++ y :: last)).filterMap f).Nodup) : False := by
    rw [List.filterMap_append, List.filterMap_cons_some fx, List.nodup_append,
      List.nodup_cons] at nodup
    exact nodup.2.1.1 (List.mem_filterMap.mpr ⟨y, by simp, fy⟩)
  rcases List.append_eq_append_iff.mp same with ⟨mid, rfl, rest⟩ | ⟨mid, rfl, rest⟩
  · cases mid with
    | nil =>
      obtain ⟨rfl, rfl⟩ := List.cons.inj rest
      exact ⟨(List.append_nil early).symm, rfl, rfl⟩
    | cons x mid =>
      obtain ⟨rfl, rfl⟩ := List.cons.inj rest
      exact (clash keyed keyed' distinct).elim
  · cases mid with
    | nil =>
      obtain ⟨rfl, rfl⟩ := List.cons.inj rest
      exact ⟨List.append_nil early', rfl, rfl⟩
    | cons x mid =>
      obtain ⟨rfl, rfl⟩ := List.cons.inj rest
      rw [List.append_assoc] at distinct
      exact (clash keyed' keyed distinct).elim

theorem Chosen.reverse {scope outer : Place} {name : String} {id : Ident}
    {early late : List Mention}
    (chosen : Chosen scope name early outer id late) :
    Chosen scope name early.reverse outer id late.reverse where
  named := chosen.named
  around := chosen.around
  innermost := fun m member => chosen.innermost m (List.mem_reverse.mp member)
  latest := fun m member => chosen.latest m (List.mem_reverse.mp member)

theorem StandsFor.unique {before : List Mention} {scope : Place} {name : String} {id id' : Ident}
    (first : StandsFor before scope name id) (second : StandsFor before scope name id') :
    id' = id := by
  obtain ⟨early, outer, late, rfl, chosen⟩ := first
  obtain ⟨early', outer', late', split, chosen'⟩ := second
  have mirrored := congrArg List.reverse split
  simp only [List.reverse_append, List.reverse_cons, List.append_assoc, List.singleton_append]
    at mirrored
  exact (chosen.reverse.unique chosen'.reverse mirrored).2.1.symm

private theorem StandsFor.standsAt {early late : List Mention} {scope outer : Place} {name : String}
    {id : Ident} (chosen : Chosen scope name early outer id late) :
    StandsAt (early ++ Mention.declared outer id :: late).reverse scope name (declCount early) := by
  refine ⟨late.reverse, outer, id, early.reverse, by simp, chosen.reverse, ?_⟩
  exact (List.reverse_perm early).countP_eq _

theorem StandsAt.unique {past : List Mention} {scope : Place} {name : String} {i j : Nat}
    (first : StandsAt past scope name i) (second : StandsAt past scope name j) : j = i := by
  obtain ⟨late, outer, id, early, rfl, chosen, rfl⟩ := first
  obtain ⟨late', outer', id', early', split, chosen', rfl⟩ := second
  rw [(chosen.unique chosen' split).2.2]

private theorem exists_standsFor {before : List Mention} {scope : Place} {name : String}
    {m : Mention}
    (member : m ∈ before) (offers : m.Offers scope name) :
    ∃ id, StandsFor before scope name id := by
  obtain ⟨i, late, outer, id, early, split, chosen, -⟩ :=
    exists_standsAt (List.mem_reverse.mpr member) offers
  refine ⟨id, early.reverse, outer, late.reverse, ?_, chosen.reverse⟩
  rw [List.reverse_eq_iff] at split
  simpa using split

private theorem lookup_declTable {early late : List Mention} {outer : Place} {id : Ident}
    (distinct : (((early ++ Mention.declared outer id :: late).filterMap Mention.declaration?).map
      Ident.span).Nodup) :
    (declTable (early ++ Mention.declared outer id :: late).reverse).lookup id.span =
      some (declCount early) := by
  have newer (late : List Mention) (other : ∀ x ∈ late.filterMap Mention.declaration?,
      x.span ≠ id.span) :
      (declTable (late ++ Mention.declared outer id :: early.reverse)).lookup id.span =
        some (declCount early) := by
    induction late with
    | nil =>
      have count : declCount early.reverse = declCount early :=
        (List.reverse_perm early).countP_eq _
      rw [List.nil_append, declTable, List.lookup_cons_self, count]
    | cons m late ih =>
      cases m with
      | used scope span n =>
        rw [List.filterMap_cons_none rfl] at other
        exact ih other
      | declared scope x =>
        have declared : (Mention.declared scope x).declaration? = some x := rfl
        rw [List.filterMap_cons_some declared] at other
        obtain ⟨first, rest⟩ := List.forall_mem_cons.mp other
        have different : (id.span == x.span) = false := by simpa using Ne.symm first
        rw [List.cons_append, declTable, List.lookup_cons, different]
        exact ih rest
  have mirrored : (early ++ Mention.declared outer id :: late).reverse =
      late.reverse ++ Mention.declared outer id :: early.reverse := by simp
  rw [mirrored]
  refine newer late.reverse fun x member same => ?_
  have declared : (Mention.declared outer id).declaration? = some id := rfl
  rw [List.filterMap_append, List.filterMap_cons_some declared, List.map_append, List.map_cons,
    List.nodup_append, List.nodup_cons] at distinct
  refine distinct.2.1.1 (List.mem_map.mpr ⟨x, ?_, same⟩)
  rw [List.filterMap_reverse] at member
  exact List.mem_reverse.mp member

namespace SourceUnit

private theorem mem_varRefs_iff {unit : SourceUnit} {before after : List Mention} {scope : Place}
    {span : Span} {name : String} (distinct : (unit.names.map Prod.fst).Nodup)
    (split : unit.mentions = before ++ Mention.used scope span name :: after) (i : Nat) :
    (span, i) ∈ (resolve unit).varRefs ↔ StandsAt before.reverse scope name i := by
  obtain ⟨s, tables, tracks⟩ := exists_tracks_resolve unit
  rw [← tables, tracks.refs]
  constructor
  · rintro ⟨newer, scope', name', older, split', stands⟩
    rw [List.reverse_eq_iff, List.reverse_append, List.reverse_cons, List.append_assoc,
      List.singleton_append] at split'
    have spans : (unit.mentions.filterMap fun m => m.use?.map Prod.fst).Nodup := by
      rwa [← unit.mentions_covers.1, List.map_filterMap] at distinct
    rw [split] at spans split'
    obtain ⟨rfl, same, -⟩ := split_unique spans rfl rfl split'
    cases same
    rwa [List.reverse_reverse]
  · intro stands
    exact ⟨after.reverse, scope, name, before.reverse, by simp [split], stands⟩

/-- A name leads nowhere exactly if no declaration before it is offered to it. -/
theorem lookup_varRefs_eq_none_iff {unit : SourceUnit} {before after : List Mention} {scope : Place}
    {span : Span} {name : String} (distinct : (unit.names.map Prod.fst).Nodup)
    (split : unit.mentions = before ++ Mention.used scope span name :: after) :
    (resolve unit).varRefs.lookup span = none ↔ ∀ m ∈ before, ¬ m.Offers scope name := by
  have refers := mem_varRefs_iff distinct split
  constructor
  · intro none m member offers
    obtain ⟨i, stands⟩ := exists_standsAt (List.mem_reverse.mpr member) offers
    have absent := List.lookup_eq_none_iff.mp none _ ((refers i).mpr stands)
    simp at absent
  · intro none
    refine lookup_eq_none_of_not_mem fun i member => ?_
    obtain ⟨m, member, offers⟩ := exists_offers_of_standsAt ((refers i).mp member)
    exact none m (List.mem_reverse.mp member) offers

private theorem exists_variable {unit : SourceUnit} {early late : List Mention} {outer : Place}
    {id : Ident} (split : unit.mentions = early ++ Mention.declared outer id :: late) :
    ∃ v, (resolve unit).vars[declCount early]? = some v ∧ v.name = id.name ∧ v.span = id.span := by
  obtain ⟨s, tables, tracks⟩ := exists_tracks_resolve unit
  have declared : (Mention.declared outer id).declaration? = some id := rfl
  have idents := tracks.vars
  rw [tables, List.reverse_reverse, split, List.filterMap_append,
    List.filterMap_cons_some declared] at idents
  have entry := congrArg (fun l => l[declCount early]?) idents
  have count : (early.filterMap Mention.declaration?).length = declCount early :=
    length_declarations early
  simp only [List.getElem?_map, ← count, List.getElem?_append_right (Nat.le_refl _), Nat.sub_self,
    List.getElem?_cons_zero] at entry
  obtain ⟨v, found, same⟩ := Option.map_eq_some_iff.mp entry
  rw [count] at found
  exact ⟨v, found, congrArg Ident.name same, congrArg Ident.span same⟩

end SourceUnit

/-- In a source file whose names stand at different places, and whose declarations do, the names
resolve lexically. The mentions run through all names and all declarations. Of the declarations of
a name that are read before its use, and whose scope is around it, the use stands for exactly one;
its range leads to the position of that one among the variables. A name for which there is none
leads nowhere. -/
theorem names_resolved_lexically (unit : SourceUnit)
    (distinctNames : (unit.names.map Prod.fst).Nodup)
    (distinctDeclarations : (unit.declares.map Ident.span).Nodup) :
    unit.mentions.filterMap Mention.use? = unit.names ∧
      unit.mentions.filterMap Mention.declaration? = unit.declares ∧
      ∀ before scope span name after, unit.mentions = before ++ .used scope span name :: after →
        ((∃ m ∈ before, m.Offers scope name) → ∃! id, StandsFor before scope name id) ∧
        (∀ id, StandsFor before scope name id → ∃ i v,
          (resolve unit).varRefs.lookup span = some i ∧
            (resolve unit).varDecls.lookup id.span = some i ∧
            (resolve unit).vars[i]? = some v ∧ v.name = id.name ∧ v.span = id.span) ∧
        ((∀ m ∈ before, ¬ m.Offers scope name) → (resolve unit).varRefs.lookup span = none) := by
  obtain ⟨uses, declarations⟩ := unit.mentions_covers
  refine ⟨uses, declarations, fun before scope span name after split => ⟨?_, ?_, ?_⟩⟩
  · rintro ⟨m, member, offers⟩
    obtain ⟨id, stands⟩ := exists_standsFor member offers
    exact ⟨id, stands, fun other stands' => stands.unique stands'⟩
  · rintro id ⟨early, outer, late, rfl, chosen⟩
    have refers := SourceUnit.mem_varRefs_iff distinctNames split
    have stands := StandsFor.standsAt chosen
    have split' : unit.mentions = early ++ .declared outer id ::
        (late ++ .used scope span name :: after) := by
      rw [split, List.append_assoc, List.cons_append]
    obtain ⟨v, entry, sameName, sameSpan⟩ := SourceUnit.exists_variable split'
    have declared : (resolve unit).varDecls.lookup id.span = some (declCount early) := by
      obtain ⟨s, tables, tracks⟩ := exists_tracks_resolve unit
      rw [← tables, tracks.decls, split']
      rw [← declarations, split'] at distinctDeclarations
      exact lookup_declTable distinctDeclarations
    refine ⟨declCount early, v, ?_, declared, entry, sameName, sameSpan⟩
    refine lookup_eq_some_of_mem (fun j member => ?_) ((refers _).mpr stands)
    exact stands.unique ((refers j).mp member)
  · exact (SourceUnit.lookup_varRefs_eq_none_iff distinctNames split).mpr

/-- `int v; void f(int v) { int v[v] = v; for (int v = 0; v;) w; }` -/
def shadowSample : SourceUnit :=
  let int (start : Nat) : TypeSpec := ⟨.named ⟨"int", ⟨start, start + 3⟩⟩, 0, ⟨start, start + 3⟩⟩
  let v (start : Nat) : Ident := ⟨"v", ⟨start, start + 1⟩⟩
  let use (start : Nat) (name : String) : Expr := .name ⟨start, start + 1⟩ name
  ⟨[.global ⟨int 0, [⟨0, v 4, [], none, ⟨4, 5⟩⟩], ⟨0, 6⟩⟩,
    .function ⟨false, int 7, ⟨"f", ⟨12, 13⟩⟩, [⟨int 14, some (v 18), ⟨14, 19⟩⟩],
      some ⟨[.decl ⟨23, 36⟩ ⟨int 23, [⟨0, v 27, [some (use 29 "v")], some (use 34 "v"), ⟨27, 35⟩⟩],
          ⟨23, 36⟩⟩,
        .forLoop ⟨37, 60⟩ (some (.decl ⟨int 42, [⟨0, v 46, [], some (.int ⟨50, 51⟩ 0),
          ⟨46, 51⟩⟩], ⟨42, 52⟩⟩)) (some (use 53 "v")) none (.expr ⟨57, 59⟩ (use 57 "w"))],
        ⟨21, 62⟩⟩, ⟨7, 62⟩⟩],
    ⟨0, 62⟩⟩

/-- The bound of the array stands for the parameter, and `w` for nothing. -/
theorem names_resolved_lexically_sample :
    (shadowSample.names.map Prod.fst).Nodup ∧ (shadowSample.declares.map Ident.span).Nodup ∧
      StandsFor (shadowSample.mentions.take 2) [1, 0] "v" ⟨"v", ⟨18, 19⟩⟩ ∧
      (∃ i v, (resolve shadowSample).varRefs.lookup ⟨29, 30⟩ = some i ∧
        (resolve shadowSample).vars[i]? = some v ∧ v.span = ⟨18, 19⟩) ∧
      (resolve shadowSample).varRefs.lookup ⟨57, 58⟩ = none := by
  have distinctNames : (shadowSample.names.map Prod.fst).Nodup := by decide
  have distinctDeclarations : (shadowSample.declares.map Ident.span).Nodup := by decide
  obtain ⟨-, -, resolved⟩ :=
    names_resolved_lexically shadowSample distinctNames distinctDeclarations
  have stands : StandsFor (shadowSample.mentions.take 2) [1, 0] "v" ⟨"v", ⟨18, 19⟩⟩ := by
    refine ⟨[.declared [] ⟨"v", ⟨4, 5⟩⟩], [1], [], rfl, rfl, ⟨[0], rfl⟩, ?_, ?_⟩
    · intro m member _
      rw [List.mem_singleton.mp member]
      exact List.nil_prefix
    · intro m member
      cases member
  obtain ⟨-, leads, -⟩ := resolved (shadowSample.mentions.take 2) [1, 0] ⟨29, 30⟩ "v"
    (shadowSample.mentions.drop 3) rfl
  obtain ⟨-, -, nowhere⟩ := resolved (shadowSample.mentions.take 7) [1, 0, 1] ⟨57, 58⟩ "w" [] rfl
  obtain ⟨i, v, refers, -, entry, -, span⟩ := leads _ stands
  refine ⟨distinctNames, distinctDeclarations, stands, ⟨i, v, refers, entry, span⟩, nowhere ?_⟩
  rintro m member ⟨⟨id, same, named⟩, -⟩
  have declared : id ∈ (shadowSample.mentions.take 7).filterMap Mention.declaration? :=
    List.mem_filterMap.mpr ⟨m, member, by rw [same]; rfl⟩
  have others : ∀ x ∈ (shadowSample.mentions.take 7).filterMap Mention.declaration?,
      x.name ≠ "w" := by decide
  exact others id declared named

end Lockstep
