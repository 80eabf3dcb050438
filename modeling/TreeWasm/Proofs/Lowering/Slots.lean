import TreeWasm.Proofs.Lowering.Frame
import TreeWasm.Proofs.Storage.Pools

/-! # Slots are taken and given back

Lowering keeps a discipline of slots: those in use are exactly the slots of the variables in sight and
of the temporaries that are pending, and parameters have slots of their own. The basic steps keep it,
and so does every lowering, which therefore never gives back a slot that is not in use. `Lower.Passes`
is about the states between the steps of a lowering: in none of them do two variables, or a variable
and a temporary, have a slot in common.
-/

namespace TreeWasm

open Steps (bind_of_ok bind_of_error)

namespace Binding

/-- The slots of a local variable. -/
def slots : Binding → List Nat
  | .variable (.locals _ slots) => slots
  | _ => []

/-- The slots of a parameter. -/
def paramSlots : Binding → List Nat
  | .parameter (.locals _ slots) => slots
  | _ => []

end Binding

/-- Something that bindings have, of all bindings of a level. -/
def Level.collect (f : Binding → List Nat) (level : Level Binding) : List Nat :=
  level.bindings.flatMap (fun entry => f entry.2)

theorem Level.collect_define {f : Binding → List Nat} {level : Level Binding} {name : String}
    (hfresh : level.find? name = none) {binding : Binding} :
    (level.define name binding).collect f = level.collect f ++ f binding := by
  have hbind (bindings : List (String × Binding)) (hfresh : bindings.lookup name = none) :
      Level.bind name binding bindings = bindings ++ [(name, binding)] := by
    induction bindings with
    | nil => rfl
    | cons entry rest ih =>
      obtain ⟨other, old⟩ := entry
      rw [List.lookup_cons] at hfresh
      split at hfresh
      · cases hfresh
      next hother =>
        rw [Level.bind, if_neg (fun heq => by simp [heq] at hother), ih hfresh]
        rfl
  rw [collect, define, hbind level.bindings hfresh, List.flatMap_append]
  simp [collect]

namespace Chain

/-- Something that bindings have, of all bindings in sight. -/
def collect (f : Binding → List Nat) (names : Chain Binding) : List Nat := names.flatMap (Level.collect f)

theorem collect_split (f : Binding → List Nat) (names : Chain Binding) :
    names.collect f = (names.headD Level.empty).collect f ++ collect f names.tail := by
  cases names with
  | nil => rfl
  | cons level rest => exact List.flatMap_cons

theorem perm_collect_define (f : Binding → List Nat) {names : Chain Binding} {name : String}
    (hfresh : names.lookupLocal name = none) (binding : Binding) :
    ((names.define name binding).collect f).Perm (f binding ++ names.collect f) := by
  cases names with
  | nil =>
    rw [define, collect, List.flatMap_singleton, Level.collect_define rfl]
    exact List.perm_append_comm
  | cons level rest =>
    rw [define, collect, List.flatMap_cons, Level.collect_define hfresh, collect, List.flatMap_cons,
      ← List.append_assoc]
    exact List.perm_append_comm.append_right _

end Chain

namespace LowerState

variable {names : Chain Binding} {temps : List Held} {slots : List Nat} {pool : SlotPool} {name : String}

/-- The slots of the local variables in sight. -/
def ownSlots (s : LowerState) : List Nat := s.names.collect Binding.slots

/-- The slots of the parameters in sight. -/
def parameters (s : LowerState) : List Nat := s.names.collect Binding.paramSlots

/-- The slots of the temporaries that are pending. -/
def pending (s : LowerState) : List Nat := s.temps.flatMap Held.slots

/-- Exactly the slots of variables and pending temporaries are in use, once each, and parameters have
slots of their own. -/
structure Disciplined (s : LowerState) : Prop where
  pool : s.pool.Sound
  live : s.pool.live.Perm (s.ownSlots ++ s.pending)
  distinct : s.parameters.Nodup
  params : ∀ slot ∈ s.parameters, slot < s.pool.first + s.pool.params

/-- No slot belongs to two variables, parameters or temporaries. -/
theorem Disciplined.nodup {s : LowerState} (h : s.Disciplined) :
    (s.parameters ++ (s.ownSlots ++ s.pending)).Nodup := by
  have hlive : (s.ownSlots ++ s.pending).Nodup :=
    h.live.nodup_iff.mp (List.nodup_append.mp h.pool.distinct).2.1
  refine List.nodup_append.mpr ⟨h.distinct, hlive, ?_⟩
  rintro slot hparam _ hslot rfl
  have hrange := h.pool.range slot (List.mem_append_right _ (h.live.mem_iff.mpr hslot))
  have hfirst := h.params slot hparam
  omega

/-- The second state is disciplined, with the levels and temporaries around of the first; `settled`
says that no temporary is left over. -/
structure Advances (settled : Prop) (s s' : LowerState) : Prop where
  disciplined : s'.Disciplined
  outer : s'.names.tail = s.names.tail
  temps : s.temps <:+ s'.temps
  same : settled → s'.temps = s.temps

variable {s s' s'' : LowerState} {settled : Prop}

theorem Disciplined.advances (h : s.Disciplined) : s.Advances settled s :=
  ⟨h, rfl, List.suffix_refl _, fun _ => rfl⟩

theorem Advances.trans (h : s.Advances settled s') (h' : s'.Advances settled s'') : s.Advances settled s'' :=
  ⟨h'.disciplined, h'.outer.trans h.outer, h.temps.trans h'.temps,
    fun hsettled => (h'.same hsettled).trans (h.same hsettled)⟩

theorem Still.disciplined (h : s.Still s') (hs : s.Disciplined) : s'.Disciplined := by
  obtain ⟨hpool, hlive, hdistinct, hparams⟩ := hs
  unfold ownSlots pending at hlive
  unfold parameters at hdistinct hparams
  refine ⟨h.pool ▸ hpool, ?_, ?_, ?_⟩
  · rwa [h.pool, ownSlots, pending, h.names, h.temps]
  · rwa [parameters, h.names]
  · rwa [parameters, h.names, h.pool]

theorem Disciplined.alloc (h : s.Disciplined) {l : Layout}
    (halloc : s.pool.alloc l = .ok (pool, slots))
    (hlive : (names.collect Binding.slots ++ temps.flatMap Held.slots).Perm
      (slots ++ (s.ownSlots ++ s.pending)))
    (hparams : (names.collect Binding.paramSlots).Perm s.parameters) :
    Disciplined { s with pool := pool, names := names, temps := temps } := by
  obtain ⟨hsound, hpool⟩ := h.pool.alloc halloc
  obtain ⟨hextends, -⟩ := SlotPool.kinds_of_alloc halloc
  refine ⟨hsound, ?_, hparams.nodup_iff.mpr h.distinct, fun slot hslot => ?_⟩
  · change pool.live.Perm _
    rw [hpool]
    exact (h.live.append_left slots).trans hlive.symm
  · change slot < pool.first + pool.params
    rw [hextends.first, hextends.params]
    exact h.params slot (hparams.mem_iff.mp hslot)

/-- Slots that are in use are given back, and with them what they were taken for. -/
theorem Disciplined.release (h : s.Disciplined) (hextends : s.pool.Extends pool)
    (hsound : pool.Sound)
    (hlive : pool.live.Perm (names.collect Binding.slots ++ temps.flatMap Held.slots))
    (hparams : (names.collect Binding.paramSlots).Sublist s.parameters) :
    Disciplined { s with pool := pool, names := names, temps := temps } := by
  refine ⟨hsound, hlive, h.distinct.sublist hparams, fun slot hslot => ?_⟩
  change slot < pool.first + pool.params
  rw [hextends.first, hextends.params]
  exact h.params slot (hparams.subset hslot)

theorem Disciplined.defineParameter (h : s.Disciplined) (hfresh : s.names.lookupLocal name = none)
    {info : Info} (hnew : (slots ++ s.parameters).Nodup)
    (hrange : ∀ slot ∈ slots, slot < s.pool.first + s.pool.params) :
    Disciplined { s with names := s.names.define name (.parameter (.locals info slots)) } ∧
      ((s.names.define name (.parameter (.locals info slots))).collect Binding.paramSlots).Perm
        (slots ++ s.parameters) := by
  have hvariables := Chain.perm_collect_define Binding.slots hfresh (.parameter (.locals info slots))
  have hparameters := Chain.perm_collect_define Binding.paramSlots hfresh (.parameter (.locals info slots))
  refine ⟨⟨h.pool, h.live.trans (hvariables.append_right _).symm, hparameters.nodup_iff.mpr hnew, ?_⟩,
    hparameters⟩
  intro slot hslot
  obtain hslot | hslot := List.mem_append.mp (hparameters.mem_iff.mp hslot)
  · exact hrange slot hslot
  · exact h.params slot hslot

/-- No slot is in use, and neither a name nor a temporary stands for one. -/
structure Idle (s : LowerState) : Prop where
  pool : s.pool.Sound
  live : s.pool.live = []
  temps : s.temps = []
  ownSlots : s.ownSlots = []
  parameters : s.parameters = []

theorem Idle.disciplined (h : s.Idle) : s.Disciplined := by
  refine ⟨h.pool, ?_, ?_, ?_⟩
  · rw [h.live, h.ownSlots, pending, h.temps]
    exact .nil
  · rw [h.parameters]
    exact List.nodup_nil
  · simp [h.parameters]

theorem Disciplined.idle (h : s.Disciplined) (htemps : s.temps = []) (hvariables : s.ownSlots = [])
    (hparameters : s.parameters = []) : s.Idle := by
  have hlive := h.live
  rw [hvariables, pending, htemps] at hlive
  exact ⟨h.pool, hlive.eq_nil, htemps, hvariables, hparameters⟩

theorem Idle.of_same (h : s.Idle) (hpool : s'.pool = s.pool) (htemps : s'.temps = s.temps)
    (hnames : s'.names = s.names) : s'.Idle := by
  obtain ⟨hsound, hlive, hnone, hvariables, hparameters⟩ := h
  refine ⟨hpool ▸ hsound, hpool ▸ hlive, htemps ▸ hnone, ?_, ?_⟩
  · rwa [LowerState.ownSlots, hnames]
  · rwa [LowerState.parameters, hnames]

theorem Idle.advance (h : s.Idle) (hadvances : s.Advances True s') (hnames : s'.names = s.names) :
    s'.Idle := by
  refine hadvances.disciplined.idle ((hadvances.same trivial).trans h.temps) ?_ ?_
  · rw [LowerState.ownSlots, hnames]
    exact h.ownSlots
  · rw [LowerState.parameters, hnames]
    exact h.parameters

theorem Idle.inPool (h : s.Idle) (params : List Wasm.ValType) (labels : Labels) :
    Idle { s with pool := .ofParams params, labels := labels } :=
  ⟨.ofParams params, rfl, h.temps, h.ownSlots, h.parameters⟩

theorem Idle.define (h : s.Idle) (hfresh : s.names.lookupLocal name = none) {binding : Binding}
    (hslots : binding.slots = []) (hparams : binding.paramSlots = []) (memory : StaticMemory) :
    Idle { s with static := memory, names := s.names.define name binding } := by
  have hvariables := Chain.perm_collect_define Binding.slots hfresh binding
  have hparameters := Chain.perm_collect_define Binding.paramSlots hfresh binding
  rw [hslots, List.nil_append, show s.names.collect Binding.slots = [] from h.ownSlots] at hvariables
  rw [hparams, List.nil_append, show s.names.collect Binding.paramSlots = [] from h.parameters] at hparameters
  exact ⟨h.pool, h.live, h.temps, hvariables.eq_nil, hparameters.eq_nil⟩

end LowerState

namespace Lower

open LowerState

variable {α β γ : Type} {typed settled : Prop} {ctx : LowerContext} {s : LowerState}
  {l : Layout} {pos : Position}

/-! ## Giving slots back -/

/-- The step gives back the slots, whenever they are in use, and does nothing else. -/
def Frees (slots : List Nat) (x : Lower Unit) : Prop :=
  ∀ ctx s rest, s.pool.Sound → s.pool.live.Perm (slots ++ rest) → ∃ pool,
    x ctx s = (.ok (), { s with pool := pool }) ∧ s.pool.Extends pool ∧ pool.Sound ∧ pool.live.Perm rest

theorem frees_pure : Frees [] (Pure.pure () : Lower Unit) :=
  fun _ s _ hsound hlive => ⟨s.pool, rfl, .refl _, hsound, hlive⟩

theorem frees_release (held : Held) : Frees held.slots (release held) := by
  intro ctx s rest hsound hlive
  obtain ⟨hstray, hrest⟩ := SlotPool.release_of_perm hlive
  refine ⟨_, ?_, s.pool.extends_release held.slots, hsound.release held.slots, hrest⟩
  rw [release_run, hstray]

theorem frees_forM {f : γ → Lower Unit} {g : γ → List Nat} {items : List γ}
    (h : ∀ item ∈ items, Frees (g item) (f item)) : Frees (items.flatMap g) (items.forM f) := by
  induction items with
  | nil => exact frees_pure
  | cons item rest ih =>
    intro ctx s others hsound hlive
    rw [List.forall_mem_cons] at h
    rw [List.flatMap_cons, List.append_assoc] at hlive
    obtain ⟨pool, hrun, hextends, hsound, hlive⟩ := h.1 ctx s _ hsound hlive
    obtain ⟨pool', hrun', hextends', hsound', hlive'⟩ :=
      ih h.2 ctx { s with pool := pool } others hsound hlive
    refine ⟨pool', ?_, hextends.trans hextends', hsound', hlive'⟩
    exact (bind_of_ok hrun).trans hrun'

theorem frees_bindings (level : Level Binding) : Frees (level.collect Binding.slots)
    (level.bindings.forM (fun (_, binding) =>
      match binding with
      | .variable (.locals info slots) => release ⟨info.pos, slots⟩
      | _ => Pure.pure ())) := by
  refine frees_forM (fun entry _ => ?_)
  dsimp only
  unfold Binding.slots
  split
  · exact frees_release ⟨_, _⟩
  · exact frees_pure

/-- Closing a level gives back the slots of its variables. -/
theorem closeLevel_run (hs : s.Disciplined) : ∃ s',
    closeLevel ctx s = (.ok (), s') ∧ s'.Disciplined ∧ s'.names = s.names.tail ∧ s'.temps = s.temps := by
  have hlive := hs.live
  rw [ownSlots, Chain.collect_split, List.append_assoc] at hlive
  obtain ⟨pool, hrun, hextends, hsound, hlive⟩ := frees_bindings _ ctx s _ hs.pool hlive
  have hparams : (Chain.collect Binding.paramSlots s.names.tail).Sublist s.parameters := by
    rw [parameters, Chain.collect_split _ s.names]
    exact List.sublist_append_right _ _
  refine ⟨_, ?_, hs.release hextends hsound hlive hparams, rfl, rfl⟩
  rw [← List.drop_one]
  exact bind_of_ok hrun

/-! ## Steps that keep the discipline -/

/-- From a disciplined state the step leads to one, or fails for an allowed reason. -/
structure Orderly (typed settled : Prop) (x : Lower α) (ctx : LowerContext) (s : LowerState) :
    Prop where
  ok : ∀ a s', x ctx s = (.ok a, s') → s.Advances settled s'
  error : ∀ failure s', x ctx s = (.error failure, s') → failure.Allowed typed

namespace Orderly

variable {x : Lower α} {f : α → Lower β} {s' : LowerState}

theorem of_ok {a : α} (hrun : x ctx s = (.ok a, s')) (h : s.Advances settled s') :
    Orderly typed settled x ctx s := by
  refine ⟨fun _ _ hrun' => ?_, fun _ _ hrun' => ?_⟩
  · cases hrun.symm.trans hrun'
    exact h
  · cases hrun.symm.trans hrun'

theorem of_error {failure : Failure} (hrun : x ctx s = (.error failure, s'))
    (h : failure.Allowed typed) : Orderly typed settled x ctx s := by
  refine ⟨fun _ _ hrun' => ?_, fun _ _ hrun' => ?_⟩
  · cases hrun.symm.trans hrun'
  · cases hrun.symm.trans hrun'
    exact h

/-- One step comes down to another one that starts later. -/
theorem after {y : Lower α} (hrun : x ctx s = y ctx s') (hadvances : s.Advances settled s')
    (h : Orderly typed settled y ctx s') : Orderly typed settled x ctx s :=
  ⟨fun a s'' hx => hadvances.trans (h.ok a s'' (hrun.symm.trans hx)),
    fun failure s'' hx => h.error failure s'' (hrun.symm.trans hx)⟩

theorem bind (hx : Orderly typed settled x ctx s)
    (hf : ∀ a s', x ctx s = (.ok a, s') → s.Advances settled s' → Orderly typed settled (f a) ctx s') :
    Orderly typed settled (x >>= f) ctx s where
  ok := by
    intro b s'' hrun
    obtain ⟨a, s', hfirst, hrest⟩ := Steps.bind_eq_ok hrun
    have hadvances := hx.ok a s' hfirst
    exact hadvances.trans ((hf a s' hfirst hadvances).ok b s'' hrest)
  error := by
    intro failure s'' hrun
    obtain hfirst | ⟨a, s', hfirst, hrest⟩ := Steps.bind_eq_error hrun
    · exact hx.error failure s'' hfirst
    · exact (hf a s' hfirst (hx.ok a s' hfirst)).error failure s'' hrest

theorem inLevel (hx : Orderly typed settled x ctx s.opened) : Orderly typed settled (inLevel x) ctx s := by
  have hopen : Lower.inLevel x ctx s =
      (x >>= fun a => closeLevel >>= fun _ => Pure.pure a) ctx s.opened := rfl
  rcases hrun : x ctx s.opened with ⟨failure | a, s₁⟩
  · exact .of_error (hopen.trans (bind_of_error hrun)) (hx.error failure s₁ hrun)
  · obtain ⟨hdisciplined, houter, htemps, hsame⟩ := hx.ok a s₁ hrun
    obtain ⟨s₂, hclose, hdisciplined₂, hnames₂, htemps₂⟩ := closeLevel_run hdisciplined
    rw [bind_of_ok hrun, bind_of_ok hclose] at hopen
    refine .of_ok hopen ⟨hdisciplined₂, ?_, htemps₂ ▸ htemps, htemps₂ ▸ hsame⟩
    rw [hnames₂, houter, List.tail_cons]

/-- Temporaries are given back at the end of a statement. -/
theorem withTemporaries (hx : Orderly typed False x ctx s) :
    Orderly typed settled (withTemporaries x) ctx s := by
  have hstart : Lower.withTemporaries x ctx s = (x >>= fun a => do
      let temps := (← MonadState.get).temps
      (temps.take (temps.length - s.temps.length)).reverse.forM release
      modify (fun state =>
        { state with temps := temps.drop (temps.length - s.temps.length) })
      return a) ctx s := rfl
  rcases hrun : x ctx s with ⟨failure | a, s₁⟩
  · exact .of_error (hstart.trans (bind_of_error hrun)) (hx.error failure s₁ hrun)
  · obtain ⟨hdisciplined, houter, ⟨taken, htemps⟩, -⟩ := hx.ok a s₁ hrun
    have hcount : s₁.temps.length - s.temps.length = taken.length := by
      rw [← htemps, List.length_append, Nat.add_sub_cancel]
    have htake : s₁.temps.take taken.length = taken := by rw [← htemps, List.take_left]
    have hdrop : s₁.temps.drop taken.length = s.temps := by rw [← htemps, List.drop_left]
    have hlive : s₁.pool.live.Perm (taken.reverse.flatMap Held.slots ++
        (s₁.names.collect Binding.slots ++ s.temps.flatMap Held.slots)) := by
      refine hdisciplined.live.trans ?_
      rw [pending, ← htemps, List.flatMap_append]
      have htaken := (taken.reverse_perm.flatMap_right Held.slots).symm
      refine (List.perm_append_comm_assoc _ _ _).trans (htaken.append_right _)
    obtain ⟨pool, hrelease, hextends, hsound, hlive⟩ :=
      frees_forM (fun held _ => frees_release held) ctx s₁ _ hdisciplined.pool hlive
    have hend := hdisciplined.release hextends hsound hlive (List.Sublist.refl _)
    have hrest : Lower.withTemporaries x ctx s = (.ok a, { s₁ with pool := pool, temps := s.temps }) := by
      rw [hstart, bind_of_ok hrun]
      change ((s₁.temps.take (s₁.temps.length - s.temps.length)).reverse.forM release >>= _ : Lower α)
        ctx s₁ = _
      rw [hcount, htake, hdrop, bind_of_ok hrelease]
      rfl
    exact .of_ok hrest ⟨hend, houter, List.suffix_refl _, fun _ => rfl⟩

end Orderly

theorem orderly_temporary (hs : s.Disciplined) : Orderly typed False (temporary pos l) ctx s := by
  have hrun := alloc_run pos l ctx s
  cases halloc : s.pool.alloc l with
  | error defect =>
    rw [halloc] at hrun
    exact .of_error (bind_of_error hrun) ⟨rfl, fun _ => rfl⟩
  | ok taken =>
    obtain ⟨pool, slots⟩ := taken
    rw [halloc] at hrun
    refine .of_ok (bind_of_ok hrun) ⟨hs.alloc halloc ?_ (List.Perm.refl _), rfl,
      List.suffix_cons _ _, nofun⟩
    rw [List.flatMap_cons]
    exact List.perm_append_comm_assoc _ _ _

theorem orderly_declare {name : String} {f : Held → Lower α} (hs : s.Disciplined)
    (hf : ∀ held s', s'.Disciplined → Orderly typed settled (f held) ctx s') :
    Orderly typed settled (do
      let held ← alloc pos l
      bind pos name (.variable (.locals ⟨pos, l⟩ held.slots))
      f held) ctx s := by
  have hrun := alloc_run pos l ctx s
  cases halloc : s.pool.alloc l with
  | error defect =>
    rw [halloc] at hrun
    exact .of_error (bind_of_error hrun) ⟨rfl, fun _ => rfl⟩
  | ok taken =>
    obtain ⟨pool, slots⟩ := taken
    rw [halloc] at hrun
    have hbind := bind_run pos name (.variable (.locals ⟨pos, l⟩ slots)) ctx { s with pool := pool }
    split at hbind
    · exact .of_error ((bind_of_ok hrun).trans (bind_of_error hbind)) ⟨rfl, fun _ => rfl⟩
    next hfresh =>
      have hfresh : s.names.lookupLocal name = none := by simpa using hfresh
      have hslots := Chain.perm_collect_define Binding.slots hfresh (.variable (.locals ⟨pos, l⟩ slots))
      have hparams := Chain.perm_collect_define Binding.paramSlots hfresh (.variable (.locals ⟨pos, l⟩ slots))
      have hlive : ((s.names.define name (.variable (.locals ⟨pos, l⟩ slots))).collect Binding.slots ++
          s.temps.flatMap Held.slots).Perm (slots ++ (s.ownSlots ++ s.pending)) := by
        refine (hslots.append_right _).trans ?_
        rw [List.append_assoc]
        exact List.Perm.refl _
      have hdisciplined := hs.alloc halloc hlive hparams
      refine .after ((bind_of_ok hrun).trans (bind_of_ok hbind)) ?_ (hf _ _ hdisciplined)
      exact ⟨hdisciplined, Chain.tail_define _ _ _, List.suffix_refl _, fun _ => rfl⟩

/-- What is put together from the basic steps keeps the discipline. -/
theorem Composed.orderly {x : Lower α} (h : Composed typed x) (ctx : LowerContext)
    (hs : s.Disciplined) : Orderly typed False x ctx s := by
  induction h generalizing ctx s with
  | calm hcalm =>
    refine ⟨fun a s' hrun => ?_, fun failure s' hrun => ?_⟩
    · have hsame := hcalm.still ctx s
      rw [hrun] at hsame
      exact ⟨hsame.disciplined hs, congrArg List.tail hsame.names, hsame.temps ▸ List.suffix_refl _, nofun⟩
    · exact hcalm.allowed ctx s failure (by rw [hrun])
  | chain _ _ ihx ihf =>
    refine (ihx ctx hs).bind (fun a s' hrun hadvances => ?_)
    exact ihf a ⟨ctx, s, s', hrun⟩ ctx hadvances.disciplined
  | withReader g _ ih => exact ⟨(ih (g ctx) hs).ok, (ih (g ctx) hs).error⟩
  | temporary pos l => exact orderly_temporary hs
  | declare pos name l _ ih => exact orderly_declare hs (fun held _ => ih held ctx)
  | inLevel _ ih =>
    refine .inLevel (ih ctx ?_)
    exact ⟨hs.pool, hs.live, hs.distinct, hs.params⟩
  | withTemporaries _ ih => exact (ih ctx hs).withTemporaries

/-! ## The states between steps -/

/-- A state that a step passes which is put together from others. -/
inductive Passes : {α : Type} → Lower α → LowerContext → LowerState → LowerState → Prop
  | start {α : Type} (x : Lower α) (ctx : LowerContext) (s : LowerState) : Passes x ctx s s
  | stop {α : Type} {x : Lower α} {ctx : LowerContext} {s t : LowerState} {a : α} :
      Composed False x → x ctx s = (.ok a, t) → Passes x ctx s t
  | first {α β : Type} {x : Lower α} {f : α → Lower β} {ctx : LowerContext} {s t : LowerState} :
      Passes x ctx s t → Passes (x >>= f) ctx s t
  | rest {α β : Type} {x : Lower α} {f : α → Lower β} {ctx : LowerContext} {s s' t : LowerState}
      {a : α} : Composed False x → x ctx s = (.ok a, s') → Passes (f a) ctx s' t →
      Passes (x >>= f) ctx s t
  | withReader {α : Type} {x : Lower α} {g : LowerContext → LowerContext} {ctx : LowerContext}
      {s t : LowerState} : Passes x (g ctx) s t → Passes (withReader g x) ctx s t
  | inLevel {α : Type} {x : Lower α} {ctx : LowerContext} {s t : LowerState} :
      Passes x ctx { s with names := Level.empty :: s.names } t → Passes (inLevel x) ctx s t
  | withTemporaries {α : Type} {x : Lower α} {ctx : LowerContext} {s t : LowerState} :
      Passes x ctx s t → Passes (withTemporaries x) ctx s t

/-- All states that are passed from a disciplined one are disciplined. -/
theorem Passes.disciplined {x : Lower α} {t : LowerState} (h : Passes x ctx s t)
    (hs : s.Disciplined) : t.Disciplined := by
  induction h with
  | start => exact hs
  | stop hx hrun => exact ((hx.orderly _ hs).ok _ _ hrun).disciplined
  | first _ ih => exact ih hs
  | rest hx hrun _ ih => exact ih ((hx.orderly _ hs).ok _ _ hrun).disciplined
  | withReader _ ih => exact ih hs
  | inLevel _ ih => exact ih ⟨hs.pool, hs.live, hs.distinct, hs.params⟩
  | withTemporaries _ ih => exact ih hs

end Lower

end TreeWasm
