import TreeWasm.Proofs.Lowering.Composed

/-! # What lowering leaves alone

Lowering an expression or a statement works on slots, labels, temporaries and warnings. It does not
reserve static memory, and of the names in sight it touches only the innermost level, where it may
bind new names to slots.
-/

namespace TreeWasm

variable {α : Type} {x : Lower α}

/-- A name in the innermost level is found there as it was defined last. -/
theorem Chain.lookup_of_tail_eq_nil {chain : Chain α} (h : chain.tail = []) (name : String) :
    chain.lookup name = chain.lookupLocal name := by
  match chain with
  | [] => rfl
  | [level] => simp [Chain.lookup, Chain.lookupLocal]

namespace LowerState

/-- The state at the start of a level of its own. -/
abbrev opened (s : LowerState) : LowerState := { s with names := Level.empty :: s.names }

/-- The second state differs in names at most by new ones in the innermost level, and none of these
is in static memory. -/
structure Keeps (s s' : LowerState) : Prop where
  table : s'.table = s.table
  static : s'.static = s.static
  outer : s'.names.tail = s.names.tail
  found : ∀ name binding, s.names.lookupLocal name = some binding → s'.names.lookupLocal name = some binding
  stored : ∀ name info addr offset,
    s'.names.lookupLocal name = some (.variable (.data info addr offset)) →
    s.names.lookupLocal name = some (.variable (.data info addr offset))

instance : Std.Refl Fixed := ⟨fun _ => ⟨rfl, rfl, rfl⟩⟩

instance : Trans Fixed Fixed Fixed :=
  ⟨fun h h' => ⟨h'.table.trans h.table, h'.static.trans h.static, h'.names.trans h.names⟩⟩

theorem Fixed.keeps {s s' : LowerState} (h : s.Fixed s') : s.Keeps s' where
  table := h.table
  static := h.static
  outer := congrArg List.tail h.names
  found := fun name binding hfound => by rwa [h.names]
  stored := fun name info addr offset hstored => by rwa [← h.names]

instance : Std.Refl Keeps := ⟨fun s => Fixed.keeps (Std.Refl.refl s)⟩

instance : Trans Keeps Keeps Keeps :=
  ⟨fun h h' =>
    { table := h'.table.trans h.table
      static := h'.static.trans h.static
      outer := h'.outer.trans h.outer
      found := fun name binding hfound => h'.found name binding (h.found name binding hfound)
      stored := fun name info addr offset hstored =>
        h.stored name info addr offset (h'.stored name info addr offset hstored) }⟩

end LowerState

namespace Lower

open LowerState (Fixed Keeps)

variable {α : Type} {R : LowerState → LowerState → Prop} {binding : Binding}
  {ctx : LowerContext} {s s' : LowerState} {a : Unit} {pos : Position} {name : String}

theorem alloc_run (pos : Position) (l : Layout) (ctx : LowerContext) (s : LowerState) :
    alloc pos l ctx s =
      match s.pool.alloc l with
      | .ok (pool, slots) => (.ok ⟨pos, slots⟩, { s with pool := pool })
      | .error defect => (.error (.layout defect), s) := by
  change (ofLayout (s.pool.alloc l) >>= _ : Lower Held) ctx s = _
  cases s.pool.alloc l <;> rfl

theorem release_run (held : Held) :
    release held ctx s =
      (match (s.pool.release held.slots).2 with
        | none => .ok ()
        | some slot => .error (.pipeline held.pos (.slotReleasedTwice slot)),
        { s with pool := (s.pool.release held.slots).1 }) := by
  change (match (s.pool.release held.slots).2 with
    | none => Pure.pure ()
    | some slot => defect held.pos (.slotReleasedTwice slot) : Lower Unit) ctx
      { s with pool := (s.pool.release held.slots).1 } = _
  cases (s.pool.release held.slots).2 <;> rfl

theorem steps_alloc {l : Layout} : Steps Fixed (alloc pos l) := by
  intro ctx s a s' hrun
  rw [alloc_run] at hrun
  split at hrun
  · cases hrun
    exact ⟨rfl, rfl, rfl⟩
  · cases hrun

theorem steps_release (held : Held) : Steps Fixed (release held) := by
  intro ctx s a s' hrun
  rw [release_run] at hrun
  rw [← (Prod.mk.inj hrun).2]
  exact ⟨rfl, rfl, rfl⟩

theorem bind_run (pos : Position) (name : String) (binding : Binding) (ctx : LowerContext)
    (s : LowerState) :
    bind pos name binding ctx s =
      if (s.names.lookupLocal name).isSome then (.error (.lowering pos (.redefinition name)), s)
      else (.ok (), { s with names := s.names.define name binding }) := by
  change (if (s.names.lookupLocal name).isSome then fail pos (.redefinition name)
    else set { s with names := s.names.define name binding } : Lower Unit) ctx s = _
  split <;> rfl

/-- A name is bound only if it is new in the innermost level. -/
theorem bind_eq_ok (hrun : bind pos name binding ctx s = (.ok a, s')) :
    s.names.lookupLocal name = none ∧ s' = { s with names := s.names.define name binding } := by
  rw [bind_run] at hrun
  split at hrun
  · cases hrun
  next hfresh =>
    cases hrun
    exact ⟨by simpa using hfresh, rfl⟩

theorem steps_bind (hbinding : ∀ info addr offset, binding ≠ .variable (.data info addr offset)) :
    Steps Keeps (bind pos name binding) := by
  intro ctx s a s' hrun
  obtain ⟨hfresh, rfl⟩ := bind_eq_ok hrun
  refine ⟨rfl, rfl, Chain.tail_define _ _ _, ?_, ?_⟩
  · intro other binding' hfound
    rw [Chain.lookupLocal_define, if_neg]
    · exact hfound
    · rintro rfl
      rw [hfresh] at hfound
      cases hfound
  · intro other info addr offset hstored
    rw [Chain.lookupLocal_define] at hstored
    split at hstored
    · exact absurd (Option.some.inj hstored) (hbinding info addr offset)
    · exact hstored

theorem names_closeLevel (hrun : closeLevel ctx s = (.ok a, s')) :
    s'.table = s.table ∧ s'.static = s.static ∧ s'.names = s.names.tail := by
  obtain ⟨before, s₁, hget, hrun⟩ := Steps.bind_eq_ok hrun
  cases hget
  obtain ⟨_, s₂, hrelease, hrun⟩ := Steps.bind_eq_ok hrun
  cases hrun
  have hfixed : Fixed s s₂ := by
    refine Steps.forM _ (fun entry _ => ?_) ctx s _ s₂ hrelease
    dsimp only
    split
    · exact steps_release _
    · exact .pure
  obtain ⟨htable, hstatic, hnames⟩ := hfixed
  refine ⟨htable, hstatic, ?_⟩
  change s₂.names.drop 1 = s.names.tail
  rw [hnames, List.drop_one]

/-- After a level of its own is closed, the names are as before. -/
theorem steps_inLevel (h : Steps Keeps x) : Steps Fixed (inLevel x) := by
  intro ctx s a s' hrun
  obtain ⟨_, s₁, hopen, hrun⟩ := Steps.bind_eq_ok hrun
  cases hopen
  obtain ⟨b, s₂, hx, hrun⟩ := Steps.bind_eq_ok hrun
  obtain ⟨_, s₃, hclose, hrun⟩ := Steps.bind_eq_ok hrun
  cases hrun
  have hkeeps := h ctx _ _ s₂ hx
  obtain ⟨htable, hstatic, hnames⟩ := names_closeLevel hclose
  exact ⟨htable.trans hkeeps.table, hstatic.trans hkeeps.static, hnames.trans hkeeps.outer⟩

theorem steps_withTemporaries [Std.Refl R] [Trans R R R] (hR : ∀ s s', Fixed s s' → R s s') (h : Steps R x) :
    Steps R (withTemporaries x) := by
  refine .bind .get (fun before => h.bind (fun a => .bind .get (fun after => ?_)))
  refine .bind (.forM _ (fun held _ => (steps_release held).mono hR)) (fun _ => ?_)
  exact .bind (Steps.modify (fun s => hR s _ ⟨rfl, rfl, rfl⟩)) (fun _ => .pure)

/-- What is put together from the basic steps leaves static memory and outer names alone. -/
theorem Composed.keeps {typed : Prop} (h : Composed typed x) : Steps Keeps x := by
  have hfixed (s s' : LowerState) (h : s.Fixed s') : s.Keeps s' := h.keeps
  induction h with
  | calm hcalm =>
    intro ctx s a s' hrun
    have hs := hcalm.still ctx s
    rw [hrun] at hs
    exact hs.toFixed.keeps
  | chain _ _ ihx ihf =>
    intro ctx s b s'' hrun
    obtain ⟨a, s', hfirst, hrest⟩ := Steps.bind_eq_ok hrun
    exact Trans.trans (ihx ctx s a s' hfirst) (ihf a ⟨ctx, s, s', hfirst⟩ ctx s' b s'' hrest)
  | withReader g _ ih => exact ih.withReader
  | temporary pos l =>
    refine (steps_alloc.bind (fun _ => ?_)).mono hfixed
    exact .bind (Steps.modify (fun _ => ⟨rfl, rfl, rfl⟩)) (fun _ => .pure)
  | declare pos name l _ ih =>
    refine (steps_alloc.mono hfixed).bind (fun held => ?_)
    exact (steps_bind (by simp)).bind (fun _ => ih held)
  | inLevel _ ih => exact (steps_inLevel ih).mono hfixed
  | withTemporaries _ ih => exact steps_withTemporaries hfixed ih

theorem Calm.keeps (h : Calm False x) : Steps Keeps x := (Composed.calm h).keeps

end Lower

end TreeWasm
