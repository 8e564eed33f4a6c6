import Abacus.Proofs.Store.Reached
import Mathlib.Logic.Function.Basic

/-!
# Reserved names

The names of what is built in are reserved: no program can bind one, in any scope. Nothing but the
test before each binding sees to that, so the invariant says what the test relies on as well: every
scope keeps the same list of reserved names, and stands inside the outermost one.

**The law** (`Store.builtins_never_rebound`): at every moment of every run of sources, the name of
what is built in stands for it, from every scope.
-/

namespace Abacus

namespace Scope

/-- No two of the built-in names are the same. -/
theorem nodup_reserved_global : global.reserved.Nodup := by decide +kernel

/-- In a list that binds every name once, each binding is the one that is found. -/
theorem lookup_of_mem {bindings : List (String × Value)} {name : String} {value : Value}
    (hnodup : (bindings.map Prod.fst).Nodup) (h : (name, value) ∈ bindings) :
    bindings.lookup name = some value := by
  induction bindings with
  | nil => cases h
  | cons first rest ih =>
    obtain ⟨hfresh, hnodup⟩ := List.nodup_cons.mp hnodup
    rcases List.mem_cons.mp h with rfl | h
    · exact List.lookup_cons_self
    · have hne : name ≠ first.1 := by
        intro heq
        exact hfresh (heq ▸ List.mem_map_of_mem h)
      exact (lookup_cons_of_ne hne rest).trans (ih hnodup h)

/-- A built-in name stands for its function in the outermost scope. -/
theorem get?_global {name : String} {value : Value} (h : (name, value) ∈ builtins) :
    global.get? name = some value :=
  lookup_of_mem nodup_reserved_global h

end Scope

namespace Store

/-- What keeps the names of what is built in as they were. -/
structure Guarded (s : Store) : Prop where
  there : outermost.index < s.scopes.size
  /-- All scopes reserve the same names. -/
  reserved : ∀ {id : ScopeId}, id.index < s.scopes.size →
    (s.scope id).reserved = Scope.global.reserved
  /-- The outermost scope alone binds them. -/
  unbound : ∀ {id : ScopeId} {name : String}, id ≠ outermost → name ∈ Scope.global.reserved →
    (s.scope id).binds name = false
  /-- It binds them to what it bound them to at first. -/
  kept : ∀ {name : String}, name ∈ Scope.global.reserved →
    (s.scope outermost).get? name = Scope.global.get? name
  /-- Every scope stands inside it. -/
  inside : ∀ {id : ScopeId}, id.index < s.scopes.size → outermost ∈ s.chain id

variable {free : ScopeId → Prop} {s s' : Store}

/-- At first all built-in names stand for their functions. -/
theorem guarded_initial : initial.2.Guarded where
  there := by decide
  reserved hid := by
    obtain rfl := eq_outermost hid
    rfl
  unbound hne _ := by
    rw [scope_of_le (Nat.le_of_not_lt fun hid => hne (eq_outermost hid))]
    rfl
  kept _ := rfl
  inside hid := by
    obtain rfl := eq_outermost hid
    exact List.mem_cons_self

/-- The names of what is built in stand for what `held` says: all scopes reserve them, the outermost
alone binds them, and every scope stands inside it. -/
structure Walled (held : String → Option Value) (s : Store) : Prop where
  there : outermost.index < s.scopes.size
  reserved : ∀ {id : ScopeId}, id.index < s.scopes.size →
    (s.scope id).reserved = Scope.global.reserved
  unbound : ∀ {id : ScopeId} {name : String}, id ≠ outermost → name ∈ Scope.global.reserved →
    (s.scope id).binds name = false
  holds : ∀ {name : String}, name ∈ Scope.global.reserved →
    (s.scope outermost).get? name = held name
  bound : ∀ {name : String}, name ∈ Scope.global.reserved → (held name).isSome
  inside : ∀ {id : ScopeId}, id.index < s.scopes.size → outermost ∈ s.chain id

/-- To be guarded is to hold what the outermost scope has from the beginning. -/
theorem guarded_iff : s.Guarded ↔ s.Walled Scope.global.get? := by
  have hbound : ∀ {name : String}, name ∈ Scope.global.reserved →
      (Scope.global.get? name).isSome := by
    intro name hname
    obtain ⟨⟨_, value⟩, hmem, rfl⟩ := List.mem_map.mp hname
    rw [Scope.get?_global hmem]
    rfl
  exact ⟨fun h => ⟨h.there, h.reserved, h.unbound, h.kept, hbound, h.inside⟩,
    fun h => ⟨h.there, h.reserved, h.unbound, h.holds, h.inside⟩⟩

/-- A search that can succeed at one place only succeeds there. -/
theorem findSome?_of_only {α β : Type} {f : α → Option β} {xs : List α} {a : α} {b : β}
    (honly : ∀ x, x ≠ a → f x = none) (hmem : a ∈ xs) (ha : f a = some b) :
    xs.findSome? f = some b := by
  classical
  induction xs with
  | nil => cases hmem
  | cons x rest ih =>
    by_cases hx : x = a
    · rw [hx, List.findSome?_cons_of_isSome (by simp [ha]), ha]
    · rw [List.findSome?_cons_of_isNone (by simp [honly x hx])]
      exact ih ((List.mem_cons.mp hmem).resolve_left fun heq => hx heq.symm)

namespace Walled

variable {held held' : String → Option Value} {id here place : ScopeId} {name : String}
  {value : Value}

/-- From every scope, a reserved name stands for what it stands for in the outermost one. -/
theorem lookup (hs : s.Walled held) (hid : id.index < s.scopes.size)
    (hname : name ∈ Scope.global.reserved) (h : held name = some value) :
    s.lookup id name = .ok value := by
  have hfound : (s.scope outermost).get? name = some value := (hs.holds hname).trans h
  have honly : ∀ id, id ≠ outermost → (s.scope id).get? name = none := fun id hne =>
    Option.not_isSome_iff_eq_none.mp (Bool.eq_false_iff.mp (hs.unbound hne hname))
  rw [Store.lookup, findSome?_of_only honly (hs.inside hid) hfound]

/-- Only what the reserved names stand for matters. -/
theorem congr (hs : s.Walled held) (h : ∀ name ∈ Scope.global.reserved, held name = held' name) :
    s.Walled held' :=
  { hs with
    holds := fun hname => (hs.holds hname).trans (h _ hname)
    bound := fun hname => h _ hname ▸ hs.bound hname }

/-- What leaves the scopes alone leaves the names alone. -/
theorem of_scopes (hs : s.Walled held) (h : s'.scopes = s.scopes) : s'.Walled held := by
  have hscope : s'.scope = s.scope := by
    funext id
    rw [scope, scope, h]
  have hchain : s'.chain = s.chain := by
    funext id
    rw [chain, chain, hscope]
  constructor
  case there => rw [h]; exact hs.there
  case reserved => rw [h, hscope]; exact hs.reserved
  case unbound => rw [hscope]; exact hs.unbound
  case holds => rw [hscope]; exact hs.holds
  case bound => exact hs.bound
  case inside => rw [h, hchain]; exact hs.inside

/-- A scope that is opened binds nothing, and reserves what the scope around it does. -/
theorem enclose (hs : s.Walled held) (hhere : here.index < s.scopes.size) :
    (s.enclose here).2.Walled held := by
  have hsize : (s.enclose here).2.scopes.size = s.scopes.size + 1 := by
    simp [Store.enclose, addScope]
  have hnew : (s.enclose here).2.scope ⟨s.scopes.size⟩ = (s.scope here).inside here :=
    scope_enclose s here
  have hlast : ∀ {id : ScopeId}, id.index < (s.enclose here).2.scopes.size →
      id ≠ ⟨s.scopes.size⟩ → id.index < s.scopes.size := by
    intro id hid hne
    rw [hsize] at hid
    exact Nat.lt_of_le_of_ne (Nat.le_of_lt_succ hid) fun heq => hne (eq_of_index_eq heq)
  constructor
  case there => rw [hsize]; exact Nat.lt_succ_of_lt hs.there
  case reserved =>
    intro id hid
    by_cases hne : id = ⟨s.scopes.size⟩
    · rw [hne, hnew]
      exact hs.reserved hhere
    · rw [scope_enclose_of_ne hne]
      exact hs.reserved (hlast hid hne)
  case unbound =>
    intro id name hout hname
    by_cases hne : id = ⟨s.scopes.size⟩
    · rw [hne, hnew]
      rfl
    · rw [scope_enclose_of_ne hne]
      exact hs.unbound hout hname
  case holds =>
    intro name hname
    have hne : outermost ≠ ⟨s.scopes.size⟩ := by
      intro heq
      exact Nat.ne_of_lt hs.there (congrArg ScopeId.index heq)
    rw [scope_enclose_of_ne hne]
    exact hs.holds hname
  case bound => exact hs.bound
  case inside =>
    intro id hid
    rw [chain]
    by_cases hne : id = ⟨s.scopes.size⟩
    · rw [hne, hnew]
      exact List.mem_cons_of_mem _ (hs.inside hhere)
    · rw [scope_enclose_of_ne hne]
      exact hs.inside (hlast hid hne)

/-- A binding, in the outermost scope or of a name that is not reserved, gives that name its new
value. -/
theorem bindName (hs : s.Walled held) (hplace : place = outermost ∨ name ∉ Scope.global.reserved) :
    (s.bindName place name value).Walled (Function.update held name (some value)) := by
  have hsize : (s.bindName place name value).scopes.size = s.scopes.size := by
    simp [Store.bindName, modifyScope]
  have hcases : ∀ {id : ScopeId}, id.index < s.scopes.size →
      (s.bindName place name value).scope id = s.scope id ∨
      id = place ∧ (s.bindName place name value).scope id = (s.scope id).put name value := by
    intro id hid
    by_cases heq : id = place
    · subst heq
      exact .inr ⟨rfl, scope_bindName_self hid⟩
    · exact .inl (scope_bindName_of_ne heq)
  constructor
  case there => rw [hsize]; exact hs.there
  case reserved =>
    intro id hid
    rw [hsize] at hid
    rcases hcases hid with hsame | ⟨-, hput⟩
    · rw [hsame]
      exact hs.reserved hid
    · rw [hput]
      exact hs.reserved hid
  case unbound =>
    intro id other hout hother
    by_cases hid : id.index < s.scopes.size
    · rcases hcases hid with hsame | ⟨rfl, hput⟩
      · rw [hsame]
        exact hs.unbound hout hother
      · have hne : other ≠ name := fun heq => hplace.resolve_left hout (heq ▸ hother)
        rw [hput, Scope.binds_put_of_ne hne]
        exact hs.unbound hout hother
    · rw [scope_of_le (hsize ▸ Nat.le_of_not_lt hid)]
      rfl
  case holds =>
    intro other hother
    by_cases heq : other = name
    · subst heq
      obtain rfl := hplace.resolve_right (not_not_intro hother)
      rw [scope_bindName_self hs.there, Scope.get?_put_self, Function.update_self]
    · rw [Function.update_of_ne heq]
      rcases hcases hs.there with hsame | ⟨-, hput⟩
      · rw [hsame]
        exact hs.holds hother
      · rw [hput, Scope.get?_put_of_ne heq]
        exact hs.holds hother
  case bound =>
    intro other hother
    by_cases heq : other = name
    · rw [heq, Function.update_self]
      rfl
    · rw [Function.update_of_ne heq]
      exact hs.bound hother
  case inside =>
    intro id hid
    rw [hsize] at hid
    rw [chain]
    rcases hcases hid with hsame | ⟨-, hput⟩
    · rw [hsame]
      exact hs.inside hid
    · rw [hput]
      exact hs.inside hid

/-- A name that passes the test of an assignment is none of the reserved ones. -/
theorem not_mem_reserved (hs : s.Walled held) (hhere : here.index < s.scopes.size)
    (h : s.isReserved here name = false) : name ∉ Scope.global.reserved := by
  intro hmem
  rw [isReserved, hs.reserved hhere, List.contains_iff_mem.mpr hmem] at h
  cases h

/-- A binding of another name gives no reserved name a new value. -/
theorem bindName_of_not_mem (hs : s.Walled held) (hname : name ∉ Scope.global.reserved) :
    (s.bindName place name value).Walled held := by
  refine (hs.bindName (.inr hname)).congr fun other hother => Function.update_of_ne ?_ _ _
  rintro rfl
  exact hname hother

end Walled

/-- **No step rebinds a reserved name.** -/
theorem Step.guarded (h : Step free s s') (hs : s.Guarded) : s'.Guarded := by
  rw [guarded_iff] at hs ⊢
  cases h with
  | enclose hhere => exact hs.enclose hhere
  | bind _ hhere _ hplace =>
    exact hs.bindName_of_not_mem (hs.not_mem_reserved hhere (of_assignPlace hplace).1)
  | _ => exact hs.of_scopes rfl

/-- No program binds a built-in name. -/
theorem Reached.guarded (h : s.Reached) : s.Guarded := by
  induction h with
  | refl => exact guarded_initial
  | tail _ hstep ih => exact hstep.guarded ih

/-- From every scope, the name of what is built in stands for it. -/
theorem Guarded.lookup (hs : s.Guarded) {id : ScopeId} (hid : id.index < s.scopes.size)
    {name : String} {value : Value} (h : (name, value) ∈ Scope.builtins) :
    s.lookup id name = .ok value := by
  exact (guarded_iff.mp hs).lookup hid (List.mem_map_of_mem h) (Scope.get?_global h)

/-- **Names of what is built in are never rebound.** -/
theorem builtins_never_rebound :
    (∀ sources : List String, (initial.2.afterSources outermost sources).Reached) ∧
    ∀ s : Store, s.Reached →
      (∀ (fuel : Nat) (e : Expr) (here : ScopeId), here.index < s.scopes.size →
        (storeAfter (Action.evaluate (Action.apply fuel) e here s)).Reached) ∧
      (∀ id : ScopeId, id.index < s.scopes.size →
        (s.scope id).reserved = Scope.builtins.map Prod.fst) ∧
      (∀ (id : ScopeId) (name : String), id ≠ outermost → name ∈ Scope.builtins.map Prod.fst →
        (s.scope id).binds name = false) ∧
      ∀ (name : String) (value : Value), (name, value) ∈ Scope.builtins →
        (s.scope outermost).get? name = some value ∧
        ∀ (call : Call) (id : ScopeId) (position : Position), id.index < s.scopes.size →
          Action.evaluate call (.identifier name position) id s = .ok value s := by
  refine ⟨reached_afterSources, fun s hreached => ?_⟩
  have hs := hreached.guarded
  refine ⟨fun fuel e here hhere => hreached.evaluate hhere fuel e, fun _ => hs.reserved,
    fun _ _ => hs.unbound, fun name value h => ?_⟩
  refine ⟨(hs.kept (List.mem_map_of_mem h)).trans (Scope.get?_global h), ?_⟩
  intro call id position hid
  rw [Action.evaluate, Action.lookup, Action.ofName, hs.lookup hid h]

/-- A source has opened two scopes before it tries to bind a reserved name, which fails; in the inner
one the name stands for what it stood for. -/
theorem pi_in_opened_scope :
    let s := initial.2.afterSources outermost
      ["f = |x| \x7b local y = x; y \x7d; f(1); pi = 3"]
    s.Reached ∧ 2 < s.scopes.size ∧
      ("pi", Value.number (.real 3.141592653589793)) ∈ Scope.builtins ∧
      (s.scope ⟨2⟩).binds "pi" = false ∧
      Action.evaluate (Action.apply 0) (.identifier "pi" .start) ⟨2⟩ s =
        .ok (.number (.real 3.141592653589793)) s := by
  intro s
  have hreached : s.Reached := builtins_never_rebound.1 _
  have hsize : 2 < s.scopes.size := by decide +kernel
  have hpi : ("pi", Value.number (.real 3.141592653589793)) ∈ Scope.builtins :=
    List.mem_append_left _ (List.mem_append_right _ List.mem_cons_self)
  obtain ⟨-, -, hunbound, hbuiltins⟩ := builtins_never_rebound.2 s hreached
  exact ⟨hreached, hsize, hpi, hunbound ⟨2⟩ "pi" (by decide) (List.mem_map_of_mem hpi),
    (hbuiltins _ _ hpi).2 _ ⟨2⟩ _ hsize⟩

end Store

end Abacus
