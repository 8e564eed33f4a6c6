import Abacus.Proofs.Sequence.Apart
import Abacus.Proofs.Sequence.Survivors

/-!
# Pairing

`zip(l, r)` is a sequence over a source of its own, which takes from `l` and `r`. When it is
collected, each round looks into `l`, then into `r`, holds what both show as a pair, and looks into
both once more to consume it. What the sides have found they hold, so the second look finds the same.
If `l` is at its end, `r` is not asked; if `r` is, then `l` has looked at its next element and has not
consumed it.

**The law** (`Setting.zip_collects_pairs`): collecting `zip(l, r)` pairs the elements of two sequences
apart position by position, up to the end of the side that ends first, and what the other side has
beyond is still to come.
-/

namespace Abacus

/-- `collect(zip(l, r))`. -/
def Native.collectZip (machine : Machine) (p last : Position) (l r : SequenceId) : Action Value := do
  let pairs ← Native.zip.run machine p [.sequence l, .sequence r]
  Native.collect.run machine last [pairs]

namespace Native

/-- To zip two sequences is to make a source that keeps them. -/
theorem run_zip (machine : Machine) (p : Position) (l r : SequenceId) :
    zip.run machine p [.sequence l, .sequence r] = Sequence.create (.zip l r) p := rfl

/-- Pairs are collected the same with a call that answers more. -/
theorem collectZip_below {call call' : Call} (h : call.Below call') (fuel : Nat)
    (p last : Position) (l r : SequenceId) :
    Action.Below (collectZip (.ofDepth call fuel) p last l r)
      (collectZip (.ofDepth call' fuel) p last l r) := by
  have hreader := Reader.ofDepth_below h (Nat.le_refl fuel)
  rw [collectZip, collectZip, run_zip, run_zip, Sequence.create]
  simp only [bind_assoc, pure_bind, run_collect]
  refine (Action.Below.refl _).bind fun _ => (Action.Below.refl _).bind fun t => ?_
  exact (Sequence.collect_below h hreader t (Nat.le_refl fuel)).bind fun _ => .refl _

end Native

namespace Generator

variable {call : Call} {reader : Reader} {peek : Bool} {l r : SequenceId} {v : Value}
  {s s₁ s₂ s₃ : Store}

/-- A zip is at its end where its left side is, and does not ask the right one then. -/
theorem pull_zip_ended_left (hl : reader.atEnd l s = .ok true s₁) :
    pull call reader peek (.zip l r) s = .ok none s₁ := by
  rw [pull_zip, Action.bind_ok hl]
  rfl

/-- It is at its end where its right side is. -/
theorem pull_zip_ended_right (hl : reader.atEnd l s = .ok false s₁)
    (hr : reader.atEnd r s₁ = .ok true s₂) : pull call reader peek (.zip l r) s = .ok none s₂ := by
  rw [pull_zip, Action.bind_ok hl]
  exact Action.bind_ok hr _

/-- Otherwise it gives a pair, and goes on with the same sides. -/
theorem pull_zip_found (hl : reader.atEnd l s = .ok false s₁) (hr : reader.atEnd r s₁ = .ok false s₂)
    (hpair : reader.pair peek l r s₂ = .ok v s₃) :
    pull call reader peek (.zip l r) s = .ok (some (v, .zip l r)) s₃ := by
  rw [pull_zip, Action.bind_ok hl]
  exact (Action.bind_ok hr _).trans (Action.bind_ok hpair _)

end Generator

/-- Two elements that are had are had as a pair. -/
theorem Reader.pair_ok {reader : Reader} {peek : Bool} {l r : SequenceId} {a b : Value}
    {s s₁ s₂ : Store} (hl : reader.next l peek s = .ok a s₁) (hr : reader.next r peek s₁ = .ok b s₂) :
    reader.pair peek l r s = .ok (.vector (s₂.addVector #[a, b]).1) (s₂.addVector #[a, b]).2 :=
  (Action.bind_ok hl _).trans (Action.bind_ok hr _)

namespace Setting

variable {D : Type} {E : Setting D} {T : SourceId} {t l r q : SequenceId} {depth fuel m n : Nat}
  {s s' s₁ s₁' s₂ s₂' : Store} {vs ws : List Value}

/-! ## Pairs -/

/-- A value is a vector of two elements that stand for the same data as two values do, each in a store
of its own. -/
def Couple (E : Setting D) (s s₁ s₂ : Store) (x : Value) (c : Value × Value) : Prop :=
  ∃ id a b, x = .vector id ∧ id.index < s.vectors.size ∧ s.vector id = #[a, b] ∧
    E.Same s s₁ a c.1 ∧ E.Same s s₂ b c.2

/-- A couple stays one while what is outside its sequences changes. -/
theorem Couple.keeps {t t₁ t₂ : Store} {x : Value} {c : Value × Value} (h : E.Couple s s₁ s₂ x c)
    (kept : s.Keeps E.own t) (kept₁ : s₁.Keeps E.own t₁) (kept₂ : s₂.Keeps E.own t₂) :
    E.Couple t t₁ t₂ x c := by
  obtain ⟨id, a, b, rfl, hlt, hvector, ha, hb⟩ := h
  exact ⟨id, a, b, rfl, Nat.lt_of_lt_of_le hlt kept.size_vectors, (kept.vector hlt).trans hvector,
    ha.keeps kept kept₁, hb.keeps kept kept₂⟩

/-- What a sequence has to come: it is as in a store of its own, where reading on gives the value, if
there is one, and leaves that store as it is given. -/
def Rest (E : Setting D) (q : SequenceId) (depth : Nat) (v : Option Value) (s s' : Store) : Prop :=
  ∃ s₁, (E.side q).Twins s s₁ ∧
    ∀ w, v = some w → (Reader.ofDepth E.call (depth + 1)).next q false s₁ = .ok w s'

/-- What is left to come of a side does not change with what happens elsewhere. -/
theorem Rest.beside {own : SourceId → Prop} {v : Option Value} {t : Store}
    (h : E.Rest q depth v s s') (keeps : s.Keeps own t) (sub : ∀ id, own id → E.own id)
    (outside : ∀ id, E.Feeds id → ¬ own id) : E.Rest q depth v t s' := by
  obtain ⟨s₁, twins, hnext⟩ := h
  refine ⟨s₁, twins.beside keeps (Store.Keeps.refl (fun _ => False) s₁) sub (fun _ h => h.elim)
    (fun id hid => outside id (feeds_under hid).1) (fun _ _ h => h), hnext⟩

/-- What a sequence has to come is what it delivers next. -/
theorem Rest.next (h : E.Rest q depth (some v) s s') (hq : E.watched q) :
    ∃ w t, (Reader.ofDepth E.call (depth + 1)).next q false s = .ok w t ∧ E.Same t s' w v ∧
      (E.side q).Twins t s' := by
  obtain ⟨s₁, twins, hnext⟩ := h
  obtain ⟨w, t, hrun, along, same⟩ := twins.next_along (watched_side hq) (hnext v rfl)
  exact ⟨w, t, hrun, same, along.onward.twins⟩

/-! ## Rounds -/

/-- The source shows a pair of what both sides hold. -/
structure Shown (E : Setting D) (T : SourceId) (t l r : SequenceId) (s s₁ s₂ : Store)
    (id : VectorId) (a b : Value) : Prop where
  atop : E.Atop T t (.zip l r) s
  parallel : E.Parallel l r s s₁ s₂
  holds : s.Holds t (.vector id)
  left : s.Holds l a
  right : s.Holds r b
  lt : id.index < s.vectors.size
  vector : s.vector id = #[a, b]

section Rounds

variable (closed : E.Closed) (hl : E.watched l) (hr : E.watched r) (apart : E.Apart l r)

/-- While a zip is in use its sides stand as they did. -/
theorem Atop.engaged (h : E.Atop T t (.zip l r) s) (parallel : E.Parallel l r s s₁ s₂) :
    E.Parallel l r (Sequence.engage s T) s₁ s₂ :=
  parallel.beside (Sequence.keeps_engage s T) h.sub h.outside

include closed hl hr apart

/-- If both sides have an element, the source shows the pair of them. -/
theorem Atop.shows (fuel : Nat) (h : E.Atop T t (.zip l r) s) (parallel : E.Parallel l r s s₁ s₂)
    (hp : (s.sequence t).pending = none)
    (hleft : (Reader.ofDepth E.call (depth + 1)).atEnd l s₁ = .ok false s₁')
    (hright : (Reader.ofDepth E.call (depth + 1)).atEnd r s₂ = .ok false s₂') :
    ∃ s' id a b, Sequence.atEnd E.call (.ofDepth E.call (depth + 1)) (fuel + 1) t s = .ok false s' ∧
      E.Shown T t l r s' s₁' s₂' id a b ∧ s.Keeps E.own s' ∧ s₁.Keeps E.own s₁' ∧
      s₂.Keeps E.own s₂' := by
  have engaged := h.engaged parallel
  obtain ⟨sₐ, hatl, alongₗ, held⟩ := engaged.left.atEnd_along (watched_side hl) hleft
  obtain ⟨a, ha⟩ := held rfl
  have parₐ := engaged.read_left apart closed alongₗ
  obtain ⟨s_b, hatr, alongᵣ, held⟩ := parₐ.right.atEnd_along (watched_side hr) hright
  obtain ⟨b, hb⟩ := held rfl
  have par_b := parₐ.read_right apart closed alongᵣ
  -- the left side holds its element while the right one is asked
  have ha_b : s_b.Holds l a := parₐ.left.holds (watched_side hl) ha alongᵣ.keeps fun hfeeds =>
    apart _ .self (feeds_under hfeeds).2
  have hshow : (Reader.ofDepth E.call (depth + 1)).next l true s_b = .ok a s_b :=
    Sequence.peek_some (Sequence.lookahead_of_holds ha_b)
  have hshow' : (Reader.ofDepth E.call (depth + 1)).next r true s_b = .ok b s_b :=
    Sequence.peek_some (Sequence.lookahead_of_holds hb)
  have grown := s_b.grows_addVector #[a, b]
  have kept := (alongₗ.onward.kept.trans alongᵣ.onward.kept).trans (grown.keeps E.own)
  have spares := (alongₗ.onward.spares.trans alongᵣ.onward.spares).trans grown.spares
  have given := h.given (.zip l r) kept spares rfl true
    (some ((s.source T).advanced, .vector (s_b.addVector #[a, b]).1))
  have par_c := par_b.grow grown
  refine ⟨_, (s_b.addVector #[a, b]).1, a, b, ?_, ⟨given.atop, ?_, given.holds, ?_, ?_, ?_, ?_⟩, ?_,
    alongₗ.onward.kept', alongᵣ.onward.kept'⟩
  · exact Sequence.atEnd_ok (h.lookahead_found hp
      (Generator.pull_zip_found hatl hatr (Reader.pair_ok hshow hshow')))
  · exact par_c.beside given.behind h.sub h.outside
  · refine par_c.left.holds (watched_side hl) ?_ given.behind (h.outside _ (feeds_of_watched hl))
    exact par_b.left.holds (watched_side hl) ha_b grown id
  · refine par_c.right.holds (watched_side hr) ?_ given.behind (h.outside _ (feeds_of_watched hr))
    exact par_b.right.holds (watched_side hr) hb grown id
  · refine Nat.lt_of_lt_of_le ?_ given.behind.size_vectors
    simp [Store.addVector]
  · refine (given.behind.vector ?_).trans (Store.vector_addVector_new _)
    simp [Store.addVector]
  · exact (((Sequence.keeps_engage s T).mono h.sub).trans kept).trans (given.behind.mono h.sub)

/-- The pair that is shown is delivered when both sides deliver what they hold. -/
theorem Shown.delivers (fuel : Nat) {id : VectorId} {a b v w : Value}
    (h : E.Shown T t l r s s₁ s₂ id a b)
    (hleft : (Reader.ofDepth E.call (depth + 1)).next l false s₁ = .ok v s₁')
    (hright : (Reader.ofDepth E.call (depth + 1)).next r false s₂ = .ok w s₂') (p : Position) :
    ∃ s', Sequence.next E.call (.ofDepth E.call (depth + 1)) fuel t p s = .ok (.vector id) s' ∧
      E.Atop T t (.zip l r) s' ∧ E.Parallel l r s' s₁' s₂' ∧ (s'.sequence t).pending = none ∧
      E.Couple s' s₁' s₂' (.vector id) (v, w) ∧ s.Keeps E.own s' ∧ s₁.Keeps E.own s₁' ∧
      s₂.Keeps E.own s₂' := by
  have atop := h.atop
  have engaged := atop.engaged h.parallel
  have keeps₀ := Sequence.keeps_engage s T
  have ha : (Sequence.engage s T).Holds l a := h.parallel.left.holds (watched_side hl) h.left keeps₀
    (atop.outside _ (feeds_of_watched hl))
  have hb : (Sequence.engage s T).Holds r b := h.parallel.right.holds (watched_side hr) h.right keeps₀
    (atop.outside _ (feeds_of_watched hr))
  have hatl : (Reader.ofDepth E.call (depth + 1)).atEnd l (Sequence.engage s T) =
      .ok false (Sequence.engage s T) := Reader.atEnd_ok (Sequence.lookahead_of_holds ha)
  have hatr : (Reader.ofDepth E.call (depth + 1)).atEnd r (Sequence.engage s T) =
      .ok false (Sequence.engage s T) := Reader.atEnd_ok (Sequence.lookahead_of_holds hb)
  obtain ⟨a', sₐ, hnextl, alongₗ, samea⟩ := engaged.left.next_along (watched_side hl) hleft
  obtain rfl : a' = a := Sequence.next_of_holds_eq ha hnextl
  have parₐ := engaged.read_left apart closed alongₗ
  obtain ⟨b', s_b, hnextr, alongᵣ, sameb⟩ := parₐ.right.next_along (watched_side hr) hright
  have par_b := parₐ.read_right apart closed alongᵣ
  -- the right side holds its element while the left one delivers
  have hbₐ : sₐ.Holds r b := engaged.right.holds (watched_side hr) hb alongₗ.keeps fun hfeeds =>
    apart _ (feeds_under hfeeds).2 .self
  obtain rfl : b' = b := Sequence.next_of_holds_eq hbₐ hnextr
  have grown := s_b.grows_addVector #[a', b']
  have kept := (alongₗ.onward.kept.trans alongᵣ.onward.kept).trans (grown.keeps E.own)
  have spares := (alongₗ.onward.spares.trans alongᵣ.onward.spares).trans grown.spares
  have given := atop.given (.zip l r) kept spares rfl false none
  have behind := given.behind.mono atop.sub
  have keeps := ((keeps₀.mono atop.sub).trans kept).trans behind
  refine ⟨_, atop.next_found h.holds
      (Generator.pull_zip_found hatl hatr (Reader.pair_ok hnextl hnextr)), given.atop,
    (par_b.grow grown).beside given.behind atop.sub atop.outside, given.pending,
    ⟨id, a', b', rfl, Nat.lt_of_lt_of_le h.lt keeps.size_vectors, ?_, ?_, ?_⟩, keeps,
    alongₗ.onward.kept', alongᵣ.onward.kept'⟩
  · exact (keeps.vector h.lt).trans h.vector
  · have after := alongᵣ.onward.kept.trans ((grown.keeps E.own).trans behind)
    exact Same.keeps (E := E) samea after (.refl _ _)
  · exact Same.keeps (E := E) sameb ((grown.keeps E.own).trans behind) (.refl _ _)

omit hr in
/-- If the left side is at its end, so is the source, and the right side is not asked. -/
theorem Atop.ends_left (fuel : Nat) (h : E.Atop T t (.zip l r) s) (parallel : E.Parallel l r s s₁ s₂)
    (hp : (s.sequence t).pending = none)
    (hleft : (Reader.ofDepth E.call (depth + 1)).atEnd l s₁ = .ok true s₁') :
    ∃ s', Sequence.atEnd E.call (.ofDepth E.call (depth + 1)) (fuel + 1) t s = .ok true s' ∧
      E.Parallel l r s' s₁' s₂ ∧ s.Keeps E.own s' := by
  have engaged := h.engaged parallel
  obtain ⟨sₐ, hatl, along, -⟩ := engaged.left.atEnd_along (watched_side hl) hleft
  have behind := Sequence.keeps_release sₐ T
  refine ⟨_, Sequence.atEnd_ok (h.lookahead_ended hp (Generator.pull_zip_ended_left hatl)),
    (engaged.read_left apart closed along).beside behind h.sub h.outside, ?_⟩
  exact (((Sequence.keeps_engage s T).mono h.sub).trans along.onward.kept).trans (behind.mono h.sub)

/-- If only the right side is at its end, so is the source, and the left side has looked ahead. -/
theorem Atop.ends_right (fuel : Nat) (h : E.Atop T t (.zip l r) s) (parallel : E.Parallel l r s s₁ s₂)
    (hp : (s.sequence t).pending = none)
    (hleft : (Reader.ofDepth E.call (depth + 1)).atEnd l s₁ = .ok false s₁')
    (hright : (Reader.ofDepth E.call (depth + 1)).atEnd r s₂ = .ok true s₂') :
    ∃ s', Sequence.atEnd E.call (.ofDepth E.call (depth + 1)) (fuel + 1) t s = .ok true s' ∧
      E.Parallel l r s' s₁' s₂' ∧ s.Keeps E.own s' := by
  have engaged := h.engaged parallel
  obtain ⟨sₐ, hatl, alongₗ, -⟩ := engaged.left.atEnd_along (watched_side hl) hleft
  have parₐ := engaged.read_left apart closed alongₗ
  obtain ⟨s_b, hatr, alongᵣ, -⟩ := parₐ.right.atEnd_along (watched_side hr) hright
  have behind := Sequence.keeps_release s_b T
  have kept := alongₗ.onward.kept.trans alongᵣ.onward.kept
  refine ⟨_, Sequence.atEnd_ok (h.lookahead_ended hp (Generator.pull_zip_ended_right hatl hatr)),
    (parₐ.read_right apart closed alongᵣ).beside behind h.sub h.outside, ?_⟩
  exact (((Sequence.keeps_engage s T).mono h.sub).trans kept).trans (behind.mono h.sub)

/-- **Collecting pairs goes round by round as reading both sides alone does**, up to the end of the side
that ends first. -/
theorem Atop.foldAll_pairs (h : E.Atop T t (.zip l r) s) (parallel : E.Parallel l r s s₁ s₂)
    (hp : (s.sequence t).pending = none) (hfuel : m < fuel) (p : Position) {items : List Value}
    {front : List (Value × Value)} (hitems : List.Forall₂ (E.Couple s s₁ s₂) items.reverse front)
    (hleft : (Reader.ofDepth E.call (depth + 1)).first l (m + 1) s₁ = .ok vs s₁')
    (hright : (Reader.ofDepth E.call (depth + 1)).first r (m + 1) s₂ = .ok ws s₂')
    (hmin : min vs.length ws.length = m) :
    ∃ all s', Sequence.foldAll E.call (.ofDepth E.call (depth + 1)) t p
        (fun items item => pure (item :: items)) fuel items s = .ok all s' ∧
      List.Forall₂ (E.Couple s' s₁' s₂') all.reverse (front ++ vs.zip ws) ∧
      E.Rest l depth vs[m]? s' s₁' ∧ E.Rest r depth ws[m]? s' s₂' ∧ s.Keeps E.own s' := by
  induction m generalizing s s₁ s₂ vs ws fuel items front with
  | zero =>
    obtain ⟨fuel, rfl⟩ := Nat.exists_eq_succ_of_ne_zero (Nat.ne_of_gt hfuel)
    have keepsₗ := parallel.left.first_keeps (watched_side hl) hleft
    have keepsᵣ := parallel.right.first_keeps (watched_side hr) hright
    rw [Sequence.foldAll]
    obtain ⟨rfl, hendₗ⟩ | ⟨v, vs, t₁, t₁', rfl, hendₗ, hnextₗ, hdone⟩ := Reader.of_first_succ hleft
    · -- the left side is at its end, and the right one is as it was
      obtain ⟨s', hend, parallel', keeps⟩ :=
        h.ends_left closed hl apart fuel parallel hp hendₗ
      refine ⟨items, s', by rw [Action.bind_ok hend]; rfl, ?_, ?_, ?_, keeps⟩
      · rw [List.zip_nil_left, List.append_nil]
        exact hitems.imp fun _ _ hc => hc.keeps keeps keepsₗ keepsᵣ
      · exact ⟨_, parallel'.left, fun _ h => by cases h⟩
      · refine ⟨_, parallel'.right, fun w hw => ?_⟩
        obtain ⟨rfl, -⟩ | ⟨w', ws, t₂, t₂', rfl, hendᵣ, hnextᵣ, hdone⟩ := Reader.of_first_succ hright
        · cases hw
        · cases hw
          cases hdone
          exact (parallel.right.symm.next_of_atEnd (watched_side hr) hendᵣ).trans hnextᵣ
    · obtain ⟨rfl, hendᵣ⟩ | ⟨w, ws, t₂, t₂', rfl, -⟩ := Reader.of_first_succ hright
      · -- the right side is at its end, and the left one has looked ahead
        obtain ⟨s', hend, parallel', keeps⟩ :=
          h.ends_right closed hl hr apart fuel parallel hp hendₗ hendᵣ
        refine ⟨items, s', by rw [Action.bind_ok hend]; rfl, ?_, ?_, ?_, keeps⟩
        · rw [List.zip_nil_right, List.append_nil]
          exact hitems.imp fun _ _ hc => hc.keeps keeps keepsₗ keepsᵣ
        · refine ⟨_, parallel'.left, fun w hw => ?_⟩
          cases hw
          cases hdone
          exact hnextₗ
        · exact ⟨_, parallel'.right, fun _ h => by cases h⟩
      · simp only [List.length_cons] at hmin
        omega
  | succ m ih =>
    obtain ⟨fuel, rfl⟩ := Nat.exists_eq_succ_of_ne_zero (Nat.ne_of_gt (Nat.zero_lt_of_lt hfuel))
    rw [Sequence.foldAll]
    obtain ⟨rfl, -⟩ | ⟨v, vs, t₁, t₁', rfl, hendₗ, hnextₗ, hrestₗ⟩ := Reader.of_first_succ hleft
    · simp only [List.length_nil, Nat.zero_min] at hmin
      omega
    obtain ⟨rfl, -⟩ | ⟨w, ws, t₂, t₂', rfl, hendᵣ, hnextᵣ, hrestᵣ⟩ := Reader.of_first_succ hright
    · simp only [List.length_nil, Nat.min_zero] at hmin
      omega
    obtain ⟨sₐ, id, a, b, hend, shown, keepsₐ, keptₗ, keptᵣ⟩ :=
      h.shows closed hl hr apart fuel parallel hp hendₗ hendᵣ
    obtain ⟨s_b, hnext, atop, parallel', hp', couple, keeps_b, keptₗ', keptᵣ'⟩ :=
      shown.delivers closed hl hr apart (fuel + 1) hnextₗ hnextᵣ p
    have hitems' : List.Forall₂ (E.Couple s_b t₁' t₂') (.vector id :: items).reverse
        (front ++ [(v, w)]) := by
      rw [List.reverse_cons]
      refine List.rel_append ?_ (.cons couple .nil)
      exact hitems.imp fun _ _ hc =>
        hc.keeps (keepsₐ.trans keeps_b) (keptₗ.trans keptₗ') (keptᵣ.trans keptᵣ')
    simp only [List.length_cons] at hmin
    obtain ⟨all, s', hrun, hall, restₗ, restᵣ, keeps⟩ := ih atop parallel' hp'
      (Nat.lt_of_succ_lt_succ hfuel) hitems' hrestₗ hrestᵣ (by omega)
    refine ⟨all, s', ?_, ?_, restₗ, restᵣ, (keepsₐ.trans keeps_b).trans keeps⟩
    · rw [Action.bind_ok hend]
      show (Sequence.next _ _ (fuel + 1) t p >>= _) sₐ = _
      rw [Action.bind_ok hnext]
      exact hrun
    · rw [List.append_assoc] at hall
      exact hall

end Rounds

/-! ## Collecting pairs -/

/-- A value is a vector of pairs of values, each side as it stands in a store of its own. -/
def Couples (E : Setting D) (s s₁ s₂ : Store) (x : Value) (cs : List (Value × Value)) : Prop :=
  ∃ w, x = .vector w ∧ w.index < s.vectors.size ∧ List.Forall₂ (E.Couple s s₁ s₂) (s.items w) cs

section Collecting

variable (closed : E.Closed) (hl : E.watched l) (hr : E.watched r) (apart : E.Apart l r)
  (hown : E.own ⟨E.start.sources.size⟩)

include closed hl hr apart hown

/-- **What two sequences give when each is read alone, they give in pairs**, with more budget, and with
a call that answers more. -/
theorem Closed.collectZip_of_first (p last : Position)
    (hleft : (Reader.ofDepth E.call (depth + 1)).first l (m + 1) E.start = .ok vs s₁)
    (hright : (Reader.ofDepth E.call (depth + 1)).first r (m + 1) E.start = .ok ws s₂)
    (hmin : min vs.length ws.length = m) (hfuel : m ≤ depth) {call : Call}
    (hcall : E.call.Below call) :
    ∃ x s, Native.collectZip (.ofDepth call (depth + 1)) p last l r E.start = .ok x s ∧
      E.Couples s s₁ s₂ x (vs.zip ws) ∧ E.Rest l depth vs[m]? s s₁ ∧ E.Rest r depth ws[m]? s s₂ := by
  have begins : Ended (fun s' x _ => Stage.Begins ⟨E.start.sources.size⟩ (.zip l r) ⟨[], p⟩ s' x)
      E.start (.ok ()) (Native.zip.run (.ofDepth E.call (depth + 1)) p [.sequence l, .sequence r]
        E.start) := by
    rw [Native.run_zip]
    exact Pipeline.create_begins _ p E.start
  generalize hmade : Native.zip.run _ p _ E.start = made at begins
  cases begins with
  | @value x _ s₀ hx grown =>
    obtain ⟨t, rfl, atop, hp⟩ := Atop.of_begins closed hown hx
    have parallel : E.Parallel l r E.start E.start E.start := ⟨closed.under _, closed.under _⟩
    obtain ⟨all, s, hrun, hall, restₗ, restᵣ, keeps⟩ := atop.foldAll_pairs closed hl hr apart
      (parallel.grow grown) hp (Nat.lt_succ_of_le hfuel) (s₀.sequence t).position
      (show List.Forall₂ (E.Couple s₀ E.start E.start) [].reverse [] from .nil) hleft hright hmin
    have behind := s.grows_addVector all.reverse.toArray
    refine ⟨.vector (s.addVector all.reverse.toArray).1, (s.addVector all.reverse.toArray).2, ?_,
      ⟨_, rfl, ?_, ?_⟩, ?_, ?_⟩
    · refine Native.collectZip_below hcall _ p last l r ?_
      rw [Native.collectZip, Action.bind_ok hmade, Native.run_collect, Sequence.collect]
      simp only [bind_assoc, Action.view_bind]
      exact Action.bind_ok hrun _
    · simp [Store.addVector]
    · rw [Store.items, Store.vector_addVector_new]
      exact hall.imp fun _ _ hc => hc.keeps (behind.keeps _) (.refl _ _) (.refl _ _)
    · exact restₗ.beside behind (fun _ h => h.elim) fun _ _ h => h
    · exact restᵣ.beside behind (fun _ h => h.elim) fun _ _ h => h

end Collecting

/-! ## Survivors in pairs -/

/-- Read alone, a sequence gives as many elements as are asked for, or all that it has: no function
fails, and no search goes on for ever. -/
def Flows (E : Setting D) (q : SequenceId) : Prop :=
  ∀ n, ∃ depth vs s, (Reader.ofDepth E.call depth).first q n E.start = .ok vs s

/-- Read alone, a sequence comes to its end. -/
def Ends (E : Setting D) (q : SequenceId) : Prop :=
  ∃ n depth vs s, (Reader.ofDepth E.call depth).first q n E.start = .ok vs s ∧ vs.length < n

/-- The element, if there is one, is what a sequence delivers next, and all that it has beyond is as it
is in another store. -/
def GoesOn (E : Setting D) (call : Call) (fuel : Nat) (q : SequenceId) (v : Option Value)
    (s s' : Store) : Prop :=
  ∀ w, v = some w → ∃ w' t, (Reader.ofDepth call fuel).next q false s = .ok w' t ∧
    E.Same t s' w' w ∧ (E.side q).Twins t s'

/-- Two sequences read alone, one element further than the one that ends first reaches. -/
structure ReadTo (E : Setting D) (depth : Nat) (l r : SequenceId) (m : Nat) (vs ws : List Value)
    (s₁ s₂ : Store) : Prop where
  left : (Reader.ofDepth E.call depth).first l (m + 1) E.start = .ok vs s₁
  right : (Reader.ofDepth E.call depth).first r (m + 1) E.start = .ok ws s₂
  shorter : min vs.length ws.length = m

/-- The two sides may be exchanged. -/
theorem ReadTo.symm (h : E.ReadTo depth l r m vs ws s₁ s₂) : E.ReadTo depth r l m ws vs s₂ s₁ :=
  ⟨h.right, h.left, (Nat.min_comm _ _).trans h.shorter⟩

/-- If a sequence ends and another one does not fail, one of them ends first. -/
theorem Ends.readTo (ends : E.Ends l) (flows : E.Flows r) :
    ∃ m depth vs ws s₁ s₂, E.ReadTo depth l r m vs ws s₁ s₂ := by
  obtain ⟨n, depth, vs, s₁, hleft, hlt⟩ := ends
  obtain ⟨depth', ws, s₂, hright⟩ := flows (vs.length + 1)
  have hle := Reader.length_first_le hright
  have deeper : ∀ {d q k us t}, d ≤ max depth depth' →
      (Reader.ofDepth E.call d).first q k E.start = .ok us t →
      (Reader.ofDepth E.call (max depth depth')).first q k E.start = .ok us t := fun hd h =>
    Reader.first_below (Reader.ofDepth_below (.refl E.call) hd) _ _ h
  obtain ⟨t₁, hleft'⟩ := Reader.first_take (deeper (Nat.le_max_left _ _) hleft)
    (show min vs.length ws.length + 1 ≤ n by omega)
  obtain ⟨t₂, hright'⟩ := Reader.first_take (deeper (Nat.le_max_right _ _) hright)
    (show min vs.length ws.length + 1 ≤ vs.length + 1 by omega)
  refine ⟨_, _, _, _, _, _, hleft', hright', ?_⟩
  simp only [List.length_take]
  omega

/-- Pairs of values stand for the pairs of their data. -/
theorem couples_mean (unique : ∀ s, Relator.RightUnique (E.reading.means s)) {items : List Value}
    {xs ys : List D} (h : List.Forall₂ (E.Couple s s₁ s₂) items (vs.zip ws))
    (hvs : List.Forall₂ (E.reading.means s₁) vs xs) (hws : List.Forall₂ (E.reading.means s₂) ws ys) :
    List.Forall₂ (E.reading.means s) items (List.zipWith E.reading.pair xs ys) := by
  induction hvs generalizing items ws ys with
  | nil =>
    cases h
    exact .nil
  | cons hv _ ih =>
    cases hws with
    | nil =>
      cases h
      exact .nil
    | cons hw hws =>
      cases h with
      | cons hc hrest =>
        refine .cons ?_ (ih hrest hws)
        obtain ⟨id, a, b, rfl, hlt, hvector, ha, hb⟩ := hc
        exact E.reading.means_pair hlt hvector (ha.symm.means unique hv) (hb.symm.means unique hw)

section Collecting

variable (closed : E.Closed) (hl : E.watched l) (hr : E.watched r) (apart : E.Apart l r)
  (hown : E.own ⟨E.start.sources.size⟩)

include closed hl hr apart hown

/-- Two sides that are read to a common length collect to the couples of what they give, and each
goes on behind it. -/
theorem ReadTo.collectZip (h : E.ReadTo depth l r m vs ws s₁ s₂) (p last : Position) {call : Call}
    (hcall : E.call.Below call) (hdepth : depth ≤ fuel) (hfuel : m < fuel) :
    ∃ x s, Native.collectZip (.ofDepth call fuel) p last l r E.start = .ok x s ∧
      E.Couples s s₁ s₂ x (vs.zip ws) ∧ E.GoesOn call fuel l vs[m]? s s₁ ∧
      E.GoesOn call fuel r ws[m]? s s₂ := by
  obtain ⟨fuel, rfl⟩ := Nat.exists_eq_succ_of_ne_zero (Nat.ne_of_gt (Nat.zero_lt_of_lt hfuel))
  have deeper := Reader.ofDepth_below (.refl E.call) hdepth
  obtain ⟨x, s, hrun, couples, restₗ, restᵣ⟩ := closed.collectZip_of_first hl hr apart hown p last
    (Reader.first_below deeper _ _ h.left) (Reader.first_below deeper _ _ h.right) h.shorter
    (Nat.le_of_lt_succ hfuel) hcall
  have delivers : ∀ {q v s'}, E.watched q → E.Rest q fuel v s s' →
      E.GoesOn call (fuel + 1) q v s s' := by
    rintro q _ s' hq rest w rfl
    obtain ⟨w', t, hnext, same⟩ := rest.next hq
    exact ⟨w', t, (Reader.ofDepth_below hcall (Nat.le_refl _)).next q false hnext, same⟩
  exact ⟨x, s, hrun, couples, delivers hl restₗ, delivers hr restᵣ⟩

/-- **Collecting the pairs of two sequences pairs their elements position by position, up to the end of
the one that ends first; the next element of the other one is still to come.** The functions on which
the sequences draw are effect-free, nobody else reads them, and they draw on no source in common.

If neither fails nor searches for ever when it is read alone, and one of them ends, then there is a
number of elements after which the first of them ends; the vector holds a vector of two elements for
each place before, and then the other one delivers what it gives next when it is read alone, and goes
on as it does then. If their sources have supplies, then the pairs are those of the survivors of both.
The call of the setting may refuse what is not needed for that: no function is applied to what lies
beyond the next element of either side. -/
theorem zip_collects_pairs (p last : Position) :
    (E.Flows l → E.Flows r → E.Ends l ∨ E.Ends r →
      ∃ m depth vs ws s₁ s₂, E.ReadTo depth l r m vs ws s₁ s₂ ∧
        ∀ {call : Call} {fuel : Nat}, E.call.Below call → depth ≤ fuel → m < fuel →
          ∃ x s, Native.collectZip (.ofDepth call fuel) p last l r E.start = .ok x s ∧
            E.Couples s s₁ s₂ x (vs.zip ws) ∧ E.GoesOn call fuel l vs[m]? s s₁ ∧
            E.GoesOn call fuel r ws[m]? s s₂) ∧
    ((∀ s, Relator.RightUnique (E.reading.means s)) →
      ∀ {u u' v v' : Supply D} {W V : List SourceId} {xs ys : List D} {m : Nat},
        E.Stands E.start (E.start.sequence l).source u W →
        E.Stands E.start (E.start.sequence r).source v V →
        Survivors E.reading (E.pipe l) (m + 1) u xs u' →
        Survivors E.reading (E.pipe r) (m + 1) v ys v' → min xs.length ys.length = m →
        ∀ {call : Call} {fuel : Nat}, E.call.Below call → u.height + (u'.moved - u.moved) < fuel →
          v.height + (v'.moved - v.moved) < fuel → m < fuel →
          ∃ x s, Native.collectZip (.ofDepth call fuel) p last l r E.start = .ok x s ∧
            E.reading.IsVector s x (List.zipWith E.reading.pair xs ys) ∧
            (∀ d, xs[m]? = some d → ∃ a t, (Reader.ofDepth call fuel).next l false s = .ok a t ∧
              E.reading.means t a d) ∧
            ∀ d, ys[m]? = some d → ∃ b t, (Reader.ofDepth call fuel).next r false s = .ok b t ∧
              E.reading.means t b d) := by
  refine ⟨fun flowsₗ flowsᵣ ends => ?_, fun unique {u u' v v' W V xs ys m} standsₗ standsᵣ survivorsₗ
    survivorsᵣ hmin {call fuel} hcall hdepthₗ hdepthᵣ hfuel => ?_⟩
  · obtain ⟨m, depth, vs, ws, s₁, s₂, h⟩ : ∃ m depth vs ws s₁ s₂,
        E.ReadTo depth l r m vs ws s₁ s₂ := by
      obtain ends | ends := ends
      · exact ends.readTo flowsᵣ
      · obtain ⟨m, depth, ws, vs, s₂, s₁, h⟩ := ends.readTo flowsₗ
        exact ⟨m, depth, vs, ws, s₁, s₂, h.symm⟩
    exact ⟨m, depth, vs, ws, s₁, s₂, h, fun hcall hdepth hfuel =>
      h.collectZip closed hl hr apart hown p last hcall hdepth hfuel⟩
  · obtain ⟨vs, s₁, hleft, hvs, -⟩ :=
      standsₗ.first_survivors (.refl _ _) hl survivorsₗ (Nat.le_pred_of_lt hdepthₗ)
    obtain ⟨ws, s₂, hright, hws, -⟩ :=
      standsᵣ.first_survivors (.refl _ _) hr survivorsᵣ (Nat.le_pred_of_lt hdepthᵣ)
    have h : E.ReadTo (fuel - 1 + 1) l r m vs ws s₁ s₂ :=
      ⟨hleft, hright, by rw [hvs.length_eq, hws.length_eq, hmin]⟩
    obtain ⟨x, s, hrun, ⟨w, rfl, hlt, couples⟩, deliversₗ, deliversᵣ⟩ :=
      h.collectZip closed hl hr apart hown p last hcall (by omega) hfuel
    have shows : ∀ {q : SequenceId} {us : List Value} {ds : List D} {s' : Store},
        E.GoesOn call fuel q us[m]? s s' → List.Forall₂ (E.reading.means s') us ds →
        ∀ d, ds[m]? = some d → ∃ a t, (Reader.ofDepth call fuel).next q false s = .ok a t ∧
          E.reading.means t a d := by
      intro q us ds s' delivers hall d hd
      have hat := optionRel_getElem? hall m
      rw [hd] at hat
      generalize us[m]? = o at hat delivers
      cases hat with
      | some hm =>
        obtain ⟨a, t, hnext, same, -⟩ := delivers _ rfl
        exact ⟨a, t, hnext, same.symm.means unique hm⟩
    exact ⟨_, s, hrun, ⟨w, rfl, hlt, couples_mean unique couples hvs hws⟩, shows deliversₗ hvs,
      shows deliversᵣ hws⟩

end Collecting

end Setting

/-! ## A filter beside all numbers -/

/-- What is below two of the numbers from zero to three, and all numbers from zero on. -/
def belowTwoBesideAll : Setting Datum where
  own id := id.index < 3
  reading := Datum.reading _
  stream id j :=
    if id = ⟨0⟩ then (Datum.reading (·.index < 3)).rangeElement
      ((Number.integer 0).afterSteps (.integer 1) j) (.integer 4) (.integer 1) .start
    else (Datum.reading (·.index < 3)).indexElement plusZero none .start j
  limit _ := 0
  call := Action.apply 1
  start := .withSources
    #[⟨.range (.integer 0) (.integer 4) (.integer 1) .start, 0, false⟩,
      ⟨.index plusZero 0 none none .start, 0, false⟩]
    #[⟨⟨0⟩, [.filter Cursor.belowTwo], none, .start⟩, ⟨⟨1⟩, [], none, .start⟩]
  watched q := q = ⟨0⟩ ∨ q = ⟨1⟩
  exists_of_watched := by
    rintro q (rfl | rfl) <;> decide
  free_of_watched := by
    rintro q (rfl | rfl) t ht
    · obtain rfl := List.mem_singleton.mp ht
      exact Datum.operating_effectFree (show Datum.IsPlain .less from trivial) (by decide) (by decide)
    · cases ht

namespace belowTwoBesideAll

/-- Adding to zero has no effect on anything. -/
theorem effectFree_plusZero :
    belowTwoBesideAll.reading.EffectFree belowTwoBesideAll.call belowTwoBesideAll.start plusZero :=
  Datum.operating_effectFree (show Datum.IsPlain .add from trivial) (by decide) (by decide)

/-- Two sources feed the sequences that are watched. -/
theorem eq_of_feeds {id : SourceId} : belowTwoBesideAll.Feeds id → id = ⟨0⟩ ∨ id = ⟨1⟩ := by
  rintro ⟨q, rfl | rfl, rfl⟩
  · exact .inl rfl
  · exact .inr rfl

theorem watched_left : belowTwoBesideAll.watched ⟨0⟩ := .inl rfl

theorem watched_right : belowTwoBesideAll.watched ⟨1⟩ := .inr rfl

/-- What is watched refers to what is watched. -/
theorem closed : belowTwoBesideAll.Closed := by
  refine ⟨.refl _ _, .refl _ _, fun h => ?_, fun h => ?_, fun _ => rfl, fun _ => rfl, fun h => ?_,
    fun h => ?_⟩
  · obtain rfl | rfl := eq_of_feeds h
    · exact show 0 < 3 by decide
    · exact show 1 < 3 by decide
  · obtain rfl | rfl := eq_of_feeds h <;> decide
  · obtain rfl | rfl := eq_of_feeds h
    · exact .range
    · exact .index effectFree_plusZero .none
  · obtain rfl | rfl := h <;> exact .none

/-- Nothing has been read of the two sources. -/
theorem unread {id : SourceId} {g : Generator} (hlt : id.index < 2)
    (h : belowTwoBesideAll.start.source id = ⟨g, 0, false⟩) : belowTwoBesideAll.Unread id g := by
  refine ⟨hlt, Nat.lt_succ_of_lt hlt, h, ?_⟩
  rintro q (rfl | rfl) - <;> rfl

/-- The left source stands at its beginning. -/
theorem stands_left : belowTwoBesideAll.Stands belowTwoBesideAll.start ⟨0⟩
    (.raw (belowTwoBesideAll.stream ⟨0⟩) 0) [⟨0⟩] :=
  (unread (by decide) rfl).stands (.raw (.range fun _ => rfl)) ⟨rfl, rfl⟩ List.not_mem_nil

/-- So does the right one. -/
theorem stands_right : belowTwoBesideAll.Stands belowTwoBesideAll.start ⟨1⟩
    (.raw (belowTwoBesideAll.stream ⟨1⟩) 0) [⟨1⟩] :=
  (unread (by decide) rfl).stands
    (.raw (.index effectFree_plusZero (fun _ => rfl) fun _ h => nomatch h)) ⟨rfl, rfl⟩
    List.not_mem_nil

/-- The two sides have no source in common. -/
theorem apart : belowTwoBesideAll.Apart ⟨0⟩ ⟨1⟩ := by
  intro id h h'
  have first := List.mem_singleton.mp (stands_left.mem_iff.mpr h)
  have second := List.mem_singleton.mp (stands_right.mem_iff.mpr h')
  exact absurd (first.symm.trans second) (by decide)

/-- The filter lets two numbers pass, rejects what is left, and the range ends. -/
theorem survivors_left (n : Nat) :
    Survivors belowTwoBesideAll.reading (belowTwoBesideAll.pipe ⟨0⟩) (n + 3)
      (.raw (belowTwoBesideAll.stream ⟨0⟩) 0) [.number (.integer 0), .number (.integer 1)]
      (.raw (belowTwoBesideAll.stream ⟨0⟩) 4) :=
  have ended : Seeks belowTwoBesideAll.reading (belowTwoBesideAll.pipe ⟨0⟩)
      (.raw (belowTwoBesideAll.stream ⟨0⟩) 2) (.ok none) (.raw (belowTwoBesideAll.stream ⟨0⟩) 4) :=
    .reject (.raw rfl) rfl (.reject (.raw rfl) rfl (.stop (.raw rfl) isStop_none))
  .more (.found (.raw rfl) rfl (by nofun)) (.more (.found (.raw rfl) rfl (by nofun)) (.ended ended))

/-- Of the endless side as many survive as are asked for. -/
theorem survivors_right (n k : Nat) :
    ∃ xs, Survivors belowTwoBesideAll.reading (belowTwoBesideAll.pipe ⟨1⟩) n
      (.raw (belowTwoBesideAll.stream ⟨1⟩) k) xs (.raw (belowTwoBesideAll.stream ⟨1⟩) (k + n)) := by
  induction n generalizing k with
  | zero => exact ⟨_, .enough⟩
  | succ n ih =>
    obtain ⟨xs, h⟩ := ih (k + 1)
    rw [Nat.add_assoc, Nat.add_comm 1] at h
    exact ⟨_, .more (.found (.raw rfl) rfl (by nofun)) h⟩

/-- Reading the left side always comes to an answer. -/
theorem flows_left : belowTwoBesideAll.Flows ⟨0⟩ := by
  intro n
  obtain ⟨vs, s, hrun, -⟩ :=
    stands_left.first_survivors (.refl _ _) watched_left (survivors_left n) (Nat.le_refl _)
  obtain ⟨t, hrun⟩ := Reader.first_take hrun (Nat.le_add_right n 3)
  exact ⟨_, _, t, hrun⟩

/-- The left side has an end. -/
theorem ends_left : belowTwoBesideAll.Ends ⟨0⟩ := by
  obtain ⟨vs, s, hrun, hall, -⟩ :=
    stands_left.first_survivors (.refl _ _) watched_left (survivors_left 0) (Nat.le_refl _)
  exact ⟨_, _, vs, s, hrun, by rw [hall.length_eq]; decide⟩

/-- Reading the right side always comes to an answer. -/
theorem flows_right : belowTwoBesideAll.Flows ⟨1⟩ := by
  intro n
  obtain ⟨xs, h⟩ := survivors_right n 0
  obtain ⟨vs, s, hrun, -⟩ := stands_right.first_survivors (.refl _ _) watched_right h (Nat.le_refl _)
  exact ⟨_, vs, s, hrun⟩

end belowTwoBesideAll

/-- The two numbers that are below two are paired with the first two of all numbers, of which the third
one comes next. -/
theorem belowTwoBesideAll_zip :
    (∃ m depth vs ws s₁ s₂, belowTwoBesideAll.ReadTo depth ⟨0⟩ ⟨1⟩ m vs ws s₁ s₂) ∧
    ∃ x s, Native.collectZip (.ofDepth (Action.apply 1) 8) .start .start ⟨0⟩ ⟨1⟩
        belowTwoBesideAll.start = .ok x s ∧
      belowTwoBesideAll.reading.IsVector s x
        [.pair (.number (.integer 0)) (.number (.integer 0)),
          .pair (.number (.integer 1)) (.number (.integer 1))] ∧
      ∃ b t, (Reader.ofDepth (Action.apply 1) 8).next ⟨1⟩ false s = .ok b t ∧
        belowTwoBesideAll.reading.means t b (.number (.integer 2)) := by
  have zipped := Setting.zip_collects_pairs belowTwoBesideAll.closed belowTwoBesideAll.watched_left
    belowTwoBesideAll.watched_right belowTwoBesideAll.apart (show 2 < 3 by decide) .start .start
  obtain ⟨m, depth, vs, ws, s₁, s₂, read, -⟩ := zipped.1 belowTwoBesideAll.flows_left
    belowTwoBesideAll.flows_right (.inl belowTwoBesideAll.ends_left)
  refine ⟨⟨m, depth, vs, ws, s₁, s₂, read⟩, ?_⟩
  have first : Survivors belowTwoBesideAll.reading (belowTwoBesideAll.pipe ⟨1⟩) 3
      (.raw (belowTwoBesideAll.stream ⟨1⟩) 0)
      [.number (.integer 0), .number (.integer 1), .number (.integer 2)]
      (.raw (belowTwoBesideAll.stream ⟨1⟩) 3) :=
    .more (.found (.raw rfl) rfl (by nofun)) (.more (.found (.raw rfl) rfl (by nofun))
      (.more (.found (.raw rfl) rfl (by nofun)) .enough))
  obtain ⟨x, s, hrun, hvector, -, hnext⟩ := zipped.2 (fun _ _ _ _ h h' => h.unique h')
    belowTwoBesideAll.stands_left belowTwoBesideAll.stands_right (belowTwoBesideAll.survivors_left 0)
    first rfl (.refl _) (show 1 + (4 - 0) < 8 by decide) (show 1 + (3 - 0) < 8 by decide)
    (show 2 < 8 by decide)
  exact ⟨x, s, hrun, hvector, hnext _ rfl⟩

end Abacus
