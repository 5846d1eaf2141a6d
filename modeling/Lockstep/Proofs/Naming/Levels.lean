import Lockstep.Proofs.Naming.Mentions
/-!
Levels of declarations. Each open scope has a level with what was declared in it so far, and the
levels are searched from the innermost one on. What is found is the declaration that a use of the
name stands for: there is one exactly if some declaration is offered, and there are never two.
-/

set_option autoImplicit false
set_option relaxedAutoImplicit false

namespace Lockstep

def declCount (ms : List Mention) : Nat := ms.countP Mention.isDeclared

@[simp] theorem declCount_declared (scope : Place) (id : Ident) (ms : List Mention) :
    declCount (.declared scope id :: ms) = declCount ms + 1 :=
  List.countP_cons_of_pos rfl

@[simp] theorem declCount_used (scope : Place) (span : Span) (name : String) (ms : List Mention) :
    declCount (.used scope span name :: ms) = declCount ms :=
  List.countP_cons_of_neg (by simp [Mention.isDeclared])

theorem length_declarations (ms : List Mention) :
    (ms.filterMap Mention.declaration?).length = declCount ms := by
  induction ms with
  | nil => rfl
  | cons m ms ih =>
    cases m with
    | declared scope id => simpa [Mention.declaration?] using ih
    | used scope span name => rwa [List.filterMap_cons_none rfl, declCount_used]

/-- The declarations of one scope with their positions, out of mentions with the newest first. -/
def level (scope : Place) : List Mention → List (String × Nat)
  | [] => []
  | .declared own id :: past =>
    if own = scope then (id.name, declCount past) :: level scope past else level scope past
  | .used _ _ _ :: past => level scope past

/-- All declared ranges with their positions, out of mentions with the newest first. -/
def declTable : List Mention → List (Span × Nat)
  | [] => []
  | .declared _ id :: past => (id.span, declCount past) :: declTable past
  | .used _ _ _ :: past => declTable past

/-- Behind mentions with the newest first, a use of the name in the scope stands for the
declaration at position `i`. -/
def StandsAt (past : List Mention) (scope : Place) (name : String) (i : Nat) : Prop :=
  ∃ late outer id early, past = late ++ .declared outer id :: early ∧
    Chosen scope name early outer id late ∧ declCount early = i

@[simp] private theorem declares_declared_iff {scope own : Place} {name : String} {id : Ident} :
    (Mention.declared own id).Declares scope name ↔ own = scope ∧ id.name = name := by
  constructor
  · rintro ⟨id', same, named⟩
    cases same
    exact ⟨rfl, named⟩
  · rintro ⟨rfl, named⟩
    exact ⟨id, rfl, named⟩

@[simp] private theorem not_declares_used {scope own : Place} {name n : String} {span : Span} :
    ¬ (Mention.used own span n).Declares scope name := by
  rintro ⟨id, same, -⟩
  cases same

private theorem lookup_level_eq_some_iff (scope : Place) (name : String) (i : Nat)
    (past : List Mention) :
    (level scope past).lookup name = some i ↔ ∃ late id early,
      past = late ++ Mention.declared scope id :: early ∧ id.name = name ∧ declCount early = i ∧
        ∀ m ∈ late, ¬ m.Declares scope name := by
  induction past with
  | nil => simp [level]
  | cons m past ih =>
    -- A mention that does not declare the name here changes nothing.
    have skip (other : ¬ m.Declares scope name)
        (same : (level scope (m :: past)).lookup name = (level scope past).lookup name) :
        (level scope (m :: past)).lookup name = some i ↔ ∃ late id early,
          m :: past = late ++ Mention.declared scope id :: early ∧ id.name = name ∧
            declCount early = i ∧ ∀ m ∈ late, ¬ m.Declares scope name := by
      rw [same, ih]
      constructor
      · rintro ⟨late, id, early, rfl, named, count, absent⟩
        exact ⟨m :: late, id, early, rfl, named, count,
          List.forall_mem_cons.mpr ⟨other, absent⟩⟩
      · rintro ⟨late, id, early, split, named, count, absent⟩
        cases late with
        | nil =>
          obtain ⟨rfl, -⟩ := List.cons.inj split
          exact absurd ⟨id, rfl, named⟩ other
        | cons m' late =>
          obtain ⟨rfl, rfl⟩ := List.cons.inj split
          exact ⟨late, id, early, rfl, named, count, (List.forall_mem_cons.mp absent).2⟩
    cases m with
    | used own span n => exact skip not_declares_used rfl
    | declared own id =>
      by_cases here : own = scope
      · subst here
        by_cases named : id.name = name
        · subst named
          simp only [level, if_true, List.lookup_cons_self, Option.some.injEq]
          constructor
          · rintro rfl
            exact ⟨[], id, past, rfl, rfl, rfl, by simp⟩
          · rintro ⟨late, id', early, split, named, count, absent⟩
            cases late with
            | nil =>
              obtain ⟨-, rfl⟩ := List.cons.inj split
              exact count
            | cons m' late =>
              obtain ⟨rfl, -⟩ := List.cons.inj split
              exact absurd ⟨id, rfl, rfl⟩ (absent _ List.mem_cons_self)
        · refine skip (fun declares => named (declares_declared_iff.mp declares).2) ?_
          have different : (name == id.name) = false := by simpa using Ne.symm named
          simp [level, List.lookup_cons, different]
      · refine skip (fun declares => here (declares_declared_iff.mp declares).1) ?_
        simp [level, here]

private theorem lookup_level_eq_none_iff (scope : Place) (name : String) (past : List Mention) :
    (level scope past).lookup name = none ↔ ∀ m ∈ past, ¬ m.Declares scope name := by
  induction past with
  | nil => simp [level]
  | cons m past ih =>
    rw [List.forall_mem_cons, ← ih]
    cases m with
    | used own span n => simp [level]
    | declared own id =>
      by_cases here : own = scope
      · by_cases named : id.name = name
        · simp [level, here, named]
        · have different : (name == id.name) = false := by simpa using Ne.symm named
          simp [level, here, named, List.lookup_cons, different]
      · simp [level, here]

theorem Chosen.unique {scope p q : Place} {name : String} {id id' : Ident}
    {late late' early early' : List Mention} (chosen : Chosen scope name early p id late)
    (chosen' : Chosen scope name early' q id' late')
    (split : late ++ Mention.declared p id :: early = late' ++ Mention.declared q id' :: early') :
    late = late' ∧ id = id' ∧ early = early' := by
  -- Of two declarations the later one would be in the outer scope, and the earlier one as well.
  have clash {late mid early : List Mention} {p q : Place} {id id' : Ident}
      (newer : Chosen scope name (mid ++ Mention.declared q id' :: early) p id late)
      (older : Chosen scope name early q id' (late ++ Mention.declared p id :: mid)) : False := by
    have offered (own : Place) (id : Ident) (named : id.name = name) (around : own <+: scope) :
        (Mention.declared own id).Offers scope name := ⟨⟨id, rfl, named⟩, around⟩
    have inner := newer.innermost _ (by simp) (offered q id' older.named older.around)
    have outer := older.latest _ (by simp) (offered p id newer.named newer.around)
    exact outer.2 (outer.1.eq_of_length (Nat.le_antisymm outer.1.length_le inner.length_le))
  rcases List.append_eq_append_iff.mp split with ⟨mid, rfl, rest⟩ | ⟨mid, rfl, rest⟩
  · cases mid with
    | nil =>
      obtain ⟨same, rfl⟩ := List.cons.inj rest
      exact ⟨(List.append_nil late).symm, (Mention.declared.inj same).2, rfl⟩
    | cons m mid =>
      obtain ⟨rfl, rfl⟩ := List.cons.inj rest
      exact (clash chosen chosen').elim
  · cases mid with
    | nil =>
      obtain ⟨same, rfl⟩ := List.cons.inj rest
      exact ⟨List.append_nil late', (Mention.declared.inj same).2.symm, rfl⟩
    | cons m mid =>
      obtain ⟨rfl, rfl⟩ := List.cons.inj rest
      exact (clash chosen' chosen).elim

theorem exists_standsAt {past : List Mention} {scope : Place} {name : String} {m : Mention}
    (member : m ∈ past) (offers : m.Offers scope name) : ∃ i, StandsAt past scope name i := by
  induction past generalizing m with
  | nil => cases member
  | cons n past ih =>
    -- The choice so far stays unless the new mention offers a scope at least as far in.
    by_cases older : ∃ m ∈ past, m.Offers scope name
    · obtain ⟨m', member', offers'⟩ := older
      obtain ⟨i, late, outer, id, early, rfl, ⟨named, around, innermost, latest⟩, count⟩ :=
        ih member' offers'
      by_cases newer : n.Offers scope name ∧ outer <+: n.scope
      · obtain ⟨⟨⟨id', same, named'⟩, around'⟩, inside⟩ := newer
        refine ⟨_, [], n.scope, id', _, by rw [← same]; rfl, ⟨named', around', ?_, by simp⟩, rfl⟩
        intro m member offers
        refine List.IsPrefix.trans ?_ inside
        rcases List.mem_append.mp member with later | rest
        · exact (latest m later offers).1
        · rcases List.mem_cons.mp rest with rfl | earlier
          · exact List.prefix_rfl
          · exact innermost m earlier offers
      · refine ⟨i, n :: late, outer, id, early, rfl, ⟨named, around, innermost, ?_⟩, count⟩
        refine List.forall_mem_cons.mpr ⟨fun offers => ?_, latest⟩
        have outside : ¬ outer <+: n.scope := fun inside => newer ⟨offers, inside⟩
        refine ⟨(List.prefix_or_prefix_of_prefix offers.2 around).resolve_right outside, ?_⟩
        intro same
        exact outside (same ▸ List.prefix_rfl)
    · have newest : m = n := by
        rcases List.mem_cons.mp member with same | old
        · exact same
        · exact absurd ⟨m, old, offers⟩ older
      subst newest
      obtain ⟨⟨id, same, named⟩, around⟩ := offers
      refine ⟨_, [], m.scope, id, past, by rw [← same]; rfl, ⟨named, around, ?_, by simp⟩, rfl⟩
      intro m' member' offers'
      exact absurd ⟨m', member', offers'⟩ older

theorem exists_offers_of_standsAt {past : List Mention} {scope : Place} {name : String} {i : Nat}
    (stands : StandsAt past scope name i) : ∃ m ∈ past, m.Offers scope name := by
  obtain ⟨late, outer, id, early, rfl, chosen, -⟩ := stands
  exact ⟨.declared outer id, by simp, ⟨id, rfl, chosen.named⟩, chosen.around⟩

/-- The open scopes, the innermost first, are those around `scope` in which something was
mentioned. -/
structure Surrounds (opens : List Place) (scope : Place) (past : List Mention) : Prop where
  current : ∃ outer, opens = scope :: outer
  nested : opens.Pairwise fun inner outer => outer <+: inner ∧ outer ≠ inner
  complete : ∀ m ∈ past, m.scope <+: scope → m.scope ∈ opens

namespace Surrounds

variable {opens : List Place} {scope : Place} {past : List Mention}

theorem prefix_of_mem (surrounds : Surrounds opens scope past) {p : Place} (member : p ∈ opens) :
    p <+: scope := by
  obtain ⟨outer, rfl⟩ := surrounds.current
  rcases List.mem_cons.mp member with rfl | member
  · exact List.prefix_rfl
  · exact ((List.pairwise_cons.mp surrounds.nested).1 p member).1

/-- Searched from the innermost level on, the levels give what the use stands for. -/
theorem findSome?_level_iff (surrounds : Surrounds opens scope past) (name : String) (i : Nat) :
    opens.findSome? (fun p => (level p past).lookup name) = some i ↔
      StandsAt past scope name i := by
  rw [List.findSome?_eq_some_iff]
  constructor
  · rintro ⟨inner, own, around, rfl, found, none⟩
    obtain ⟨late, id, early, rfl, named, count, absent⟩ :=
      (lookup_level_eq_some_iff own name i past).mp found
    obtain ⟨-, behind, -⟩ := List.pairwise_append.mp surrounds.nested
    -- What else is offered is neither further in nor, if later, in the same scope.
    have outside (m : Mention) (member : m ∈ late ++ Mention.declared own id :: early)
        (offers : m.Offers scope name) : m.scope = own ∨ m.scope <+: own ∧ m.scope ≠ own := by
      rcases List.mem_append.mp (surrounds.complete m member offers.2) with further | here
      · have silent := (lookup_level_eq_none_iff m.scope name _).mp (none m.scope further)
        exact absurd offers.1 (silent m member)
      · rcases List.mem_cons.mp here with same | here
        · exact .inl same
        · exact .inr ((List.pairwise_cons.mp behind).1 m.scope here)
    refine ⟨late, own, id, early, rfl, ⟨named, ?_, ?_, ?_⟩, count⟩
    · exact surrounds.prefix_of_mem (by simp)
    · intro m member offers
      rcases outside m (by simp [member]) offers with same | ⟨below, -⟩
      · rw [same]
      · exact below
    · intro m member offers
      refine (outside m (by simp [member]) offers).resolve_left fun same => ?_
      exact absent m member (same ▸ offers.1)
  · rintro ⟨late, own, id, early, rfl, ⟨named, around, innermost, latest⟩, count⟩
    have isOpen : own ∈ opens :=
      surrounds.complete (.declared own id) (by simp) around
    obtain ⟨inner, outer, rfl⟩ := List.append_of_mem isOpen
    refine ⟨inner, own, outer, rfl, ?_, ?_⟩
    · refine (lookup_level_eq_some_iff own name i _).mpr ⟨late, id, early, rfl, named, count, ?_⟩
      intro m member declares
      obtain ⟨id', rfl, named'⟩ := declares
      exact (latest _ member ⟨⟨id', rfl, named'⟩, around⟩).2 rfl
    · intro p further
      refine (lookup_level_eq_none_iff p name _).mpr fun m member declares => ?_
      obtain ⟨id', rfl, named'⟩ := declares
      have offers : (Mention.declared p id').Offers scope name :=
        ⟨⟨id', rfl, named'⟩, surrounds.prefix_of_mem (List.mem_append_left _ further)⟩
      have nested := (List.pairwise_append.mp surrounds.nested).2.2 p further own (by simp)
      have within : p <+: own := by
        rcases List.mem_append.mp member with later | rest
        · exact (latest _ later offers).1
        · rcases List.mem_cons.mp rest with same | earlier
          · cases same
            exact List.prefix_rfl
          · exact innermost _ earlier offers
      exact nested.2 (nested.1.eq_of_length (Nat.le_antisymm nested.1.length_le within.length_le))

theorem append (surrounds : Surrounds opens scope past) (new : List Mention)
    (own : ∀ m ∈ new, m.scope = scope) : Surrounds opens scope (new.reverse ++ past) where
  current := surrounds.current
  nested := surrounds.nested
  complete := by
    intro m member around
    rcases List.mem_append.mp member with fresh | old
    · obtain ⟨outer, rfl⟩ := surrounds.current
      rw [own m (List.mem_reverse.mp fresh)]
      exact List.mem_cons_self
    · exact surrounds.complete m old around

end Surrounds

end Lockstep
