import TreeWasm.Proofs.Lowering.Meets
import TreeWasm.Proofs.Lowering.Scene

/-! # What lowering takes for code

Code asks for slots, memory and functions, carries labels and branches to them. Lowering has taken all
of this by the time it has built the code: `LowerState.Supplies` says of two states that what a demand
asks for was taken between them. Labels are taken once each, so that code from one part of a run does
not carry a label of another part, and each branch is counted as a use when it is built.

The steps of lowering take what the nodes ask for that they are used for.
-/

namespace TreeWasm

variable {targets : List Nat} {x : Lower α} {P : α → LowerState → Prop}

namespace LowerState

/-- The state has what is needed. -/
def Provides (scene : Scene) (s : LowerState) : Need → Prop
  | .memory => s.needsMemory = true ∨ scene.statics
  | .slots l held => l.leaves.isOk ∧ held.map s.pool.kind? = l.slots.map some
  | .function index => (scene.functions index).isSome

/-- What a demand asks for was taken between two states. -/
structure Supplies (scene : Scene) (s s' : LowerState) (d : Demand) : Prop where
  grows : s.Grows s'
  memory : s.needsMemory = true → s'.needsMemory = true
  uses : ∀ l, s.labels.uses (some l) + d.targets.count l ≤ s'.labels.uses (some l)
  fresh : ∀ l ∈ d.constructs, s.labels.counts.length ≤ l ∧ l < s'.labels.counts.length
  distinct : d.constructs.Nodup
  provided : ∀ need ∈ d.needs, s'.Provides scene need

/-- What a demand asks for was taken by steps that bind no names. -/
structure Takes (scene : Scene) (s s' : LowerState) (d : Demand) : Prop extends
    Supplies scene s s' d where
  names : s'.names = s.names

/-- Some slots were given back, and names may have been. -/
structure Settles (s s' : LowerState) : Prop where
  table : s'.table = s.table
  pool : s.pool.Extends s'.pool
  labels : s'.labels = s.labels
  memory : s'.needsMemory = s.needsMemory

variable {scene : Scene} {s s' s'' : LowerState} {d e : Demand} {need : Need}

theorem Settles.grows (h : s.Settles s') : s.Grows s' := ⟨h.table, h.pool, Nat.le_of_eq (by rw [h.labels])⟩

theorem Settles.refl (s : LowerState) : s.Settles s := ⟨rfl, .refl _, rfl, rfl⟩

theorem Settles.trans (h : s.Settles s') (h' : s'.Settles s'') : s.Settles s'' :=
  ⟨h'.table.trans h.table, h.pool.trans h'.pool, h'.labels.trans h.labels, h'.memory.trans h.memory⟩

theorem Provides.mono (h : s.Provides scene need) (hpool : s.pool.Extends s'.pool)
    (hmemory : s.needsMemory = true → s'.needsMemory = true) : s'.Provides scene need := by
  cases need with
  | memory => exact h.imp_left hmemory
  | function index => exact h
  | slots l held => exact ⟨h.1, map_eq_map_some h.2 (fun slot kind hkind => hpool.kind? hkind)⟩

namespace Supplies

theorem provides (h : s.Supplies scene s' d) (hneed : s.Provides scene need) : s'.Provides scene need :=
  hneed.mono h.grows.pool h.memory

/-- What asks for nothing new, and neither branches nor carries a label, is there from the start. -/
theorem still (hfree : d.Free) (h : ∀ need ∈ d.needs, s.Provides scene need) : s.Supplies scene s d where
  grows := .refl s
  memory := id
  uses := fun l => by simp [hfree.2]
  fresh := by simp [hfree.1]
  distinct := by simp [hfree.1]
  provided := h

theorem none (s : LowerState) : s.Supplies scene s .none := still ⟨rfl, rfl⟩ nofun

section

variable (h : s.Supplies scene s' d)
include h

theorem append (h' : s'.Supplies scene s'' e) : s.Supplies scene s'' (d ++ e) where
  grows := h.grows.trans h'.grows
  memory := fun hmemory => h'.memory (h.memory hmemory)
  uses := fun l => by
    have hd := h.uses l
    have he := h'.uses l
    rw [Demand.targets_append, List.count_append]
    omega
  fresh := by
    intro l hl
    rw [Demand.constructs_append, List.mem_append] at hl
    have hlabels := h.grows.labels
    have hlabels' := h'.grows.labels
    rcases hl with hl | hl
    · have := h.fresh l hl
      omega
    · have := h'.fresh l hl
      omega
  distinct := by
    rw [Demand.constructs_append, List.nodup_append]
    refine ⟨h.distinct, h'.distinct, fun l hl l' hl' heq => ?_⟩
    -- The labels of the second part come after all those of the first.
    have := h.fresh l hl
    have := h'.fresh l' hl'
    omega
  provided := by
    intro need hneed
    rw [Demand.needs_append, List.mem_append] at hneed
    exact hneed.elim (fun hd => h'.provides (h.provided need hd)) (h'.provided need)

theorem within (hwithin : e.Within d) : s.Supplies scene s' e where
  grows := h.grows
  memory := h.memory
  uses := fun l => Nat.le_trans (Nat.add_le_add_left (hwithin.targets l) _) (h.uses l)
  fresh := by
    intro l hl
    refine h.fresh l (List.count_pos_iff.mp ?_)
    exact Nat.lt_of_lt_of_le (List.count_pos_iff.mpr hl) (hwithin.constructs l)
  distinct := by
    rw [List.nodup_iff_count_le_one]
    exact fun l => Nat.le_trans (hwithin.constructs l) (List.nodup_iff_count_le_one.mp h.distinct l)
  provided := fun need hneed => h.provided need (hwithin.needs hneed)

theorem settle (hsettles : s'.Settles s'') : s.Supplies scene s'' d where
  grows := h.grows.trans hsettles.grows
  memory := fun hmemory => hsettles.memory.trans (h.memory hmemory)
  uses := by rw [hsettles.labels]; exact h.uses
  fresh := by rw [hsettles.labels]; exact h.fresh
  distinct := h.distinct
  provided := fun need hneed =>
    (h.provided need hneed).mono hsettles.pool (fun hmemory => hsettles.memory.trans hmemory)

end

end Supplies

namespace Takes

theorem still (hfree : d.Free) (h : ∀ need ∈ d.needs, s.Provides scene need) : s.Takes scene s d :=
  ⟨.still hfree h, rfl⟩

theorem none (s : LowerState) : s.Takes scene s .none := ⟨.none s, rfl⟩

theorem append (h : s.Takes scene s' d) (h' : s'.Takes scene s'' e) : s.Takes scene s'' (d ++ e) :=
  ⟨h.toSupplies.append h'.toSupplies, h'.names.trans h.names⟩

theorem within (h : s.Takes scene s' d) (hwithin : e.Within d) : s.Takes scene s' e :=
  ⟨h.toSupplies.within hwithin, h.names⟩

theorem trans (h : s.Takes scene s' .none) (h' : s'.Takes scene s'' d) : s.Takes scene s'' d := h.append h'

theorem settle (h : s.Takes scene s' d) (hsettles : s'.Settles s'') (hnames : s''.names = s'.names) :
    s.Takes scene s'' d :=
  ⟨h.toSupplies.settle hsettles, hnames.trans h.names⟩

/-- A change of labels that counts uses takes the branches. -/
theorem of_labels {labels : Labels} (hlen : labels.counts.length = s.labels.counts.length)
    (huses : ∀ l, labels.uses (some l) = s.labels.uses (some l) + targets.count l) :
    s.Takes scene { s with labels := labels } (.branches targets) where
  grows := ⟨rfl, .refl _, Nat.le_of_eq hlen.symm⟩
  memory := id
  uses := fun l => Nat.le_of_eq (huses l).symm
  fresh := nofun
  distinct := List.nodup_nil
  provided := nofun
  names := rfl

theorem use {l : Nat} (hl : l < s.labels.counts.length) :
    s.Takes scene { s with labels := s.labels.use l } (.branches [l]) := by
  refine of_labels (Labels.length_use _ _) (fun other => ?_)
  rw [Labels.uses_use hl, List.count_singleton]
  by_cases hother : other = l
  · simp [hother]
  · simp [hother, Ne.symm hother]

end Takes

end LowerState

/-! ## The steps of lowering -/

namespace Lower

open LowerState (Takes Settles)

variable {α : Type} (scene : Scene) {ctx : LowerContext} {s : LowerState} {info : Info}
  {pos : Position} {l : Nat} {uses : List Resolution} {binding : Binding} {layout : Layout}
  {name : String}

/-- A step of lowering that looks up the given names. -/
abbrev Does (x : Lower α) (ctx : LowerContext) (s : LowerState) (uses : List Resolution)
    (post : α → LowerState → Prop) : Prop :=
  Meets (fun failure => failure.isScoping = false) LowerState.resolved x ctx s uses post

theorem does_freshLabel : freshLabel.Does ctx s [] (fun l s' => s.Takes scene s' (.label l)) where
  ok := by
    rintro _ _ ⟨⟩
    refine ⟨rfl, ⟨⟨rfl, .refl _, ?_⟩, id, ?_, ?_, ?_, nofun⟩, rfl⟩
    · simp
    · exact fun l => Nat.le_of_eq Labels.uses_fresh.symm
    · simp [Demand.label]
    · exact List.nodup_singleton _
  error := by
    rintro _ _ ⟨⟩

theorem does_branch (hl : l < s.labels.counts.length) :
    (branch info l).Does ctx s [] (fun n s' => n = .branch info l ∧ s.Takes scene s' (.branches [l])) :=
  Meets.bind_nil (.modify rfl (Takes.use hl)) (fun _ _ h => .pure ⟨rfl, h⟩)

theorem does_branchIf {cond : Node} (hl : l < s.labels.counts.length) :
    (branchIf info l cond).Does ctx s []
      (fun n s' => n = .branchIf info l cond ∧ s.Takes scene s' (.branches [l])) :=
  Meets.bind_nil (.modify rfl (Takes.use hl)) (fun _ _ h => .pure ⟨rfl, h⟩)

theorem does_branchTable {index : Node} {default : Nat}
    (h : ∀ l ∈ targets ++ [default], l < s.labels.counts.length) :
    (branchTable info index targets default).Does ctx s []
      (fun n s' => n = .branchTable info index targets default ∧
        s.Takes scene s' (.branches (targets ++ [default]))) :=
  Meets.bind_nil
    (.modify rfl (Takes.of_labels Labels.length_useAll (fun _ => Labels.uses_useAll h)))
    (fun _ _ h => .pure ⟨rfl, h⟩)

theorem does_useMemory : useMemory.Does ctx s [] (fun _ s' => s.Takes scene s' (.ofNeeds [.memory])) := by
  refine Meets.modify rfl ⟨⟨⟨rfl, .refl _, Nat.le_refl _⟩, fun _ => rfl, ?_, nofun, List.nodup_nil, ?_⟩, rfl⟩
  · exact fun l => Nat.le_refl _
  · intro need hneed
    obtain rfl := List.mem_singleton.mp hneed
    exact .inl rfl

theorem does_ofLayout {result : Except LayoutDefect α} :
    (ofLayout result).Does ctx s [] (fun a s' => result = .ok a ∧ s' = s) := by
  cases result with
  | ok a => exact .pure ⟨rfl, rfl⟩
  | error defect => exact .throw rfl

theorem does_layoutOf {t : Ty} :
    (layoutOf t).Does ctx s [] (fun layout s' => s.table.layout t = .ok layout ∧ s' = s) := by
  refine .ite (fun _ => .throw rfl) (fun _ => .get ?_)
  refine does_ofLayout.mono (fun layout s' h => ?_)
  rwa [TypeTable.layout_unwrap] at h

theorem does_ofResult {result : Except Failure α}
    (h : ∀ failure, result = .error failure → failure.isOrdinary) :
    (ofResult result).Does ctx s [] (fun a s' => result = .ok a ∧ s' = s) := by
  cases result with
  | ok a => exact .pure ⟨rfl, rfl⟩
  | error failure => exact .throw (Failure.isOrdinary_iff.mp (h failure rfl)).1

theorem does_warn {notice : Notice} :
    (warn pos notice).Does ctx s [] (fun _ s' => s.Takes scene s' .none) := by
  refine .read (.ite (fun _ => ?_) (fun _ => .pure (.none s)))
  exact .modify rfl ⟨(Takes.none s).toSupplies.settle ⟨rfl, .refl _, rfl, rfl⟩, rfl⟩

theorem does_fold {n : Node} : (fold n).Does ctx s [] (fun m s' => n.Becomes s.labels m ∧ s' = s) := by
  refine .get (.bind_nil (does_ofResult (Node.isOrdinary_of_simplify n)) ?_)
  rintro ⟨m, changed⟩ s' ⟨hsimplify, rfl⟩
  exact .pure ⟨⟨changed, hsimplify⟩, rfl⟩

theorem does_requireMultiValue {what : String} :
    (requireMultiValue pos layout what).Does ctx s [] (fun _ s' => layout.leaves.isOk ∧ s' = s) := by
  refine .bind_nil does_ofLayout ?_
  rintro kinds s' ⟨hkinds, rfl⟩
  refine .read (.ite (fun _ => .throw rfl) (fun _ => .pure ⟨?_, rfl⟩))
  exact (Layout.slots_of_flatten hkinds).1

theorem does_alloc :
    (alloc pos layout).Does ctx s [] (fun held s' =>
      s.Takes scene s' (.ofNeeds [.slots layout held.slots])) := by
  refine .get (.bind_nil does_ofLayout ?_)
  rintro ⟨pool, slots⟩ s' ⟨hpool, rfl⟩
  refine .bind_nil (.set rfl ?_) (fun _ _ h => .pure h)
  obtain ⟨hextends, kinds, hflat, hslots⟩ := SlotPool.kinds_of_alloc hpool
  obtain ⟨hok, hkinds⟩ := Layout.slots_of_flatten hflat
  refine ⟨⟨⟨rfl, hextends, Nat.le_refl _⟩, id, fun _ => Nat.le_refl _, nofun, List.nodup_nil, ?_⟩, rfl⟩
  intro need hneed
  obtain rfl := List.mem_singleton.mp hneed
  exact ⟨hok, hkinds ▸ hslots⟩

theorem does_temporary :
    (temporary pos layout).Does ctx s [] (fun n s' =>
      s.Takes scene s' n.demand ∧ ∃ slots, n = .locals ⟨pos, layout⟩ slots) := by
  refine .bind_nil (does_alloc scene) (fun held s' htakes => ?_)
  refine .bind_nil (P := fun _ s'' => s'.Settles s'' ∧ s''.names = s'.names)
    (.modify rfl ⟨⟨rfl, .refl _, rfl, rfl⟩, rfl⟩) (fun _ s'' h => .pure ⟨?_, held.slots, rfl⟩)
  exact htakes.settle h.1 h.2

theorem does_bind (h : s.names.lookupLocal name = none) :
    (bind pos name binding).Does ctx s []
      (fun _ s' => s' = { s with names := s.names.define name binding }) := by
  refine .get (.ite (fun hbound => ?_) (fun _ => .set rfl rfl))
  rw [h] at hbound
  cases hbound

theorem does_find (h : s.names.lookup name = some binding) :
    (find pos name).Does ctx s [] (fun found s' => found = binding ∧ s' = s) := by
  refine .get ?_
  rw [h]
  exact .pure ⟨rfl, rfl⟩

theorem does_resolve (h : s.names.lookup name = some binding) :
    (resolve pos name).Does ctx s [⟨pos, name, binding.declared⟩]
      (fun found s' => found = binding ∧ s.Takes scene s' .none) := by
  refine (does_find h).bind_nil ?_
  rintro _ s' ⟨rfl, rfl⟩
  refine .bind_last (.lookups ?_ ?_) (fun _ _ h => .pure ⟨rfl, h⟩)
  · rfl
  · exact ⟨(Takes.none s').toSupplies.settle ⟨rfl, .refl _, rfl, rfl⟩, rfl⟩

/-! ## Temporaries and levels -/

theorem does_release (held : Held) :
    (release held).Does ctx s [] (fun _ s' => s.Settles s' ∧ s'.names = s.names) := by
  refine .get (.bind_nil (P := fun _ s' => s.Settles s' ∧ s'.names = s.names)
    (.set rfl ⟨⟨rfl, s.pool.extends_release held.slots, rfl, rfl⟩, rfl⟩) (fun _ s' h => ?_))
  split
  · exact .pure h
  · exact .throw rfl

/-- What holds after a step still does when its temporaries are given back. -/
theorem does_withTemporaries (h : x.Does ctx s uses P)
    (hP : ∀ a s₁ s₂, P a s₁ → s₁.Settles s₂ → s₂.names = s₁.names → P a s₂) :
    (withTemporaries x).Does ctx s uses P := by
  refine .get (h.bind_last (fun a s₁ ha => .get ?_))
  refine .bind_nil (Meets.forM (fun held _ s₂ hs₂ => ?_) ha) (fun _ s₂ hs₂ => ?_)
  · exact (does_release held).mono (fun _ s₃ h => hP a s₂ s₃ hs₂ h.1 h.2)
  · refine .bind_nil (.modify rfl ?_) (fun _ _ h => .pure h)
    exact hP a s₂ _ hs₂ ⟨rfl, .refl _, rfl, rfl⟩ rfl

theorem does_closeLevel : closeLevel.Does ctx s [] (fun _ s' => s.Settles s' ∧ s'.names = s.names.tail) := by
  refine .get (.bind_nil (P := fun _ s' => s.Settles s' ∧ s'.names = s.names) (.forM ?_ ?_) ?_)
  · rintro ⟨name, binding⟩ - s' ⟨hsettles, hnames⟩
    dsimp only
    split
    · exact (does_release _).mono (fun _ s'' h => ⟨hsettles.trans h.1, h.2.trans hnames⟩)
    · exact .pure ⟨hsettles, hnames⟩
  · exact ⟨.refl s, rfl⟩
  · rintro _ s' ⟨hsettles, hnames⟩
    refine .modify rfl ⟨hsettles.trans ⟨rfl, .refl _, rfl, rfl⟩, ?_⟩
    rw [hnames, List.drop_one]

theorem does_inLevel (h : x.Does ctx s.opened uses P) :
    (inLevel x).Does ctx s uses (fun a s' => ∃ s₁, P a s₁ ∧ s₁.Settles s' ∧ s'.names = s₁.names.tail) := by
  refine .bind_nil (P := fun _ s' => s' = s.opened) (.modify rfl rfl) ?_
  rintro _ _ rfl
  refine h.bind_last (fun a s₁ ha => ?_)
  exact does_closeLevel.bind_nil (fun _ s' hs' => .pure ⟨s₁, ha, hs'⟩)

end Lower

end TreeWasm
