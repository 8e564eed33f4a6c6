import Abacus.Proofs.Sequence.Nested

/-!
# Requests to sequences

The four functions that read a sequence, as requests with replies, and what a supply answers to them
(`Answers`): a search for the next element, which `next` consumes and `peek` and `atEnd` leave in
place, or raw elements that are skipped.

**The law** (`Setting.Stands.answered`): a request to a sequence whose source stands ends as the
supply answers, and the source is left where the answer leaves the supply; or it was given fewer
rounds than the answer takes.
-/

namespace Abacus

/-- A call of one of the functions that read a sequence. -/
inductive Request where
  | next (sequence : SequenceId) (position : Position)
  | peek (sequence : SequenceId) (position : Position)
  | atEnd (sequence : SequenceId)
  | skip (sequence : SequenceId) (count : Nat)

/-- What a call returns. -/
inductive Reply (α : Type) where
  | element (value : α)
  | truth (b : Bool)
  | done

namespace Request

/-- The sequence that a request is made of. -/
def sequence : Request → SequenceId
  | .next q _ | .peek q _ | .atEnd q | .skip q _ => q

/-- The call itself, with a budget. -/
def perform (call : Call) (budget : Nat) : Request → Action (Reply Value)
  | .next q p => do return .element (← Sequence.next call (.ofDepth call budget) budget q p)
  | .peek q p => do return .element (← Sequence.peek call (.ofDepth call budget) budget q p)
  | .atEnd q => do return .truth (← Sequence.atEnd call (.ofDepth call budget) budget q)
  | .skip q n => do
    Sequence.skip call (.ofDepth call budget) q n
    return .done

/-- A call returns if it ends otherwise than for want of budget. -/
inductive Returns (call : Call) (budget : Nat) (request : Request) (s : Store) :
    Except Interruption (Reply Value) → Store → Prop
  | value {reply : Reply Value} {s' : Store} : request.perform call budget s = .ok reply s' →
    Returns call budget request s (.ok reply) s'
  | interruption {e : Interruption} {s' : Store} : request.perform call budget s = .error e s' →
    e ≠ .outOfFuel → Returns call budget request s (.error e) s'

end Request

/-! ## What a supply answers -/

section Answers

variable {own : SourceId → Prop} {D : Type} (R : Reading own D)

/-- Raw elements are skipped one by one, up to the end. -/
inductive Skips : Nat → Supply D → Except Interruption Unit → Supply D → Prop
  | enough {u : Supply D} : Skips 0 u (.ok ()) u
  | ended {n : Nat} {u w : Supply D} : Looks R u (.ok none) w → Skips (n + 1) u (.ok ()) w
  | failed {n : Nat} {u w : Supply D} {e : Interruption} : Looks R u (.error e) w →
    Skips (n + 1) u (.error e) w
  | more {n : Nat} {u w z : Supply D} {x : D} {a : Except Interruption Unit} :
    Looks R u (.ok (some x)) w → Skips n w.drop a z → Skips (n + 1) u a z

/-- The answer to a request by a sequence with a pipe over a supply, and the supply after it. -/
inductive Answers (P : Pipe) :
    Request → Supply D → Except Interruption (Reply D) → Supply D → Prop
  | next {q : SequenceId} {p : Position} {u w : Supply D} {x : D} :
    Seeks R P u (.ok (some x)) w → Answers P (.next q p) u (.ok (.element x)) w.drop
  | next_exhausted {q : SequenceId} {p : Position} {u w : Supply D} : Seeks R P u (.ok none) w →
    Answers P (.next q p) u (.error (.fault ⟨.exhausted, p⟩)) w
  | next_error {q : SequenceId} {p : Position} {u w : Supply D} {e : Interruption} :
    Seeks R P u (.error e) w → Answers P (.next q p) u (.error e) w
  | peek {q : SequenceId} {p : Position} {u w : Supply D} {x : D} :
    Seeks R P u (.ok (some x)) w → Answers P (.peek q p) u (.ok (.element x)) w
  | peek_exhausted {q : SequenceId} {p : Position} {u w : Supply D} : Seeks R P u (.ok none) w →
    Answers P (.peek q p) u (.error (.fault ⟨.exhausted, p⟩)) w
  | peek_error {q : SequenceId} {p : Position} {u w : Supply D} {e : Interruption} :
    Seeks R P u (.error e) w → Answers P (.peek q p) u (.error e) w
  | atEnd {q : SequenceId} {u w : Supply D} {a : Option D} : Seeks R P u (.ok a) w →
    Answers P (.atEnd q) u (.ok (.truth a.isNone)) w
  | atEnd_error {q : SequenceId} {u w : Supply D} {e : Interruption} : Seeks R P u (.error e) w →
    Answers P (.atEnd q) u (.error e) w
  | skip {q : SequenceId} {n : Nat} {u w : Supply D} : Skips R n u (.ok ()) w →
    Answers P (.skip q n) u (.ok .done) w
  | skip_error {q : SequenceId} {n : Nat} {u w : Supply D} {e : Interruption} :
    Skips R n u (.error e) w → Answers P (.skip q n) u (.error e) w

variable {R}

/-- Skipping comes to one answer. -/
theorem Skips.unique {n : Nat} {u w w' : Supply D} {a a' : Except Interruption Unit}
    (h : Skips R n u a w) (h' : Skips R n u a' w') : a = a' ∧ w = w' := by
  induction h with
  | enough =>
    cases h' with
    | enough => exact ⟨rfl, rfl⟩
  | ended hlook =>
    cases h' with
    | ended hlook' => exact ⟨rfl, (hlook.unique hlook').2⟩
    | failed hlook' | more hlook' _ => cases (hlook.unique hlook').1
  | failed hlook =>
    cases h' with
    | ended hlook' | more hlook' _ => cases (hlook.unique hlook').1
    | failed hlook' =>
      obtain ⟨ha, rfl⟩ := hlook.unique hlook'
      cases ha
      exact ⟨rfl, rfl⟩
  | more hlook _ ih =>
    cases h' with
    | ended hlook' | failed hlook' => cases (hlook.unique hlook').1
    | more hlook' hrest =>
      obtain ⟨-, rfl⟩ := hlook.unique hlook'
      exact ih hrest

/-- A request has one answer. -/
theorem Answers.unique {P : Pipe} {request : Request} {u w w' : Supply D}
    {a a' : Except Interruption (Reply D)} (h : Answers R P request u a w)
    (h' : Answers R P request u a' w') : a = a' ∧ w = w' := by
  cases h with
  | next hs | next_exhausted hs | next_error hs =>
    cases h' with
    | next hs' | next_exhausted hs' | next_error hs' =>
      obtain ⟨ha, rfl⟩ := hs.unique hs'
      cases ha <;> exact ⟨rfl, rfl⟩
  | peek hs | peek_exhausted hs | peek_error hs =>
    cases h' with
    | peek hs' | peek_exhausted hs' | peek_error hs' =>
      obtain ⟨ha, rfl⟩ := hs.unique hs'
      cases ha <;> exact ⟨rfl, rfl⟩
  | atEnd hs | atEnd_error hs =>
    cases h' with
    | atEnd hs' | atEnd_error hs' =>
      obtain ⟨ha, rfl⟩ := hs.unique hs'
      cases ha <;> exact ⟨rfl, rfl⟩
  | skip hs | skip_error hs =>
    cases h' with
    | skip hs' | skip_error hs' =>
      obtain ⟨ha, rfl⟩ := hs.unique hs'
      cases ha <;> exact ⟨rfl, rfl⟩

/-- Skipping does not go back. -/
theorem Skips.moved_le {n : Nat} {u w : Supply D} {a : Except Interruption Unit}
    (h : Skips R n u a w) : u.moved ≤ w.moved := by
  induction h with
  | enough => exact Nat.le_refl _
  | ended hlook | failed hlook => exact hlook.moved_le
  | @more _ u w z _ _ hlook _ ih =>
    exact Nat.le_trans hlook.moved_le (Nat.le_trans (Nat.le_of_lt w.moved_lt_drop) ih)

/-- No request goes back. -/
theorem Answers.moved_le {P : Pipe} {request : Request} {u w : Supply D}
    {a : Except Interruption (Reply D)} (h : Answers R P request u a w) : u.moved ≤ w.moved := by
  cases h with
  | @next _ _ _ w _ hs => exact Nat.le_trans hs.moved_le (Nat.le_of_lt w.moved_lt_drop)
  | next_exhausted hs | next_error hs | peek hs | peek_exhausted hs | peek_error hs | atEnd hs
  | atEnd_error hs => exact hs.moved_le
  | skip hs | skip_error hs => exact hs.moved_le

/-- What a call returns shows an answer. -/
inductive Reading.Shows {own : SourceId → Prop} {D : Type} (R : Reading own D) (s : Store) :
    Except Interruption (Reply Value) → Except Interruption (Reply D) → Prop
  | element {v : Value} {x : D} : R.means s v x → Shows R s (.ok (.element v)) (.ok (.element x))
  | truth {b : Bool} : Shows R s (.ok (.truth b)) (.ok (.truth b))
  | done : Shows R s (.ok .done) (.ok .done)
  | error {e : Interruption} : Shows R s (.error e) (.error e)

/-- What a reply shows it shows while the store keeps what it had. -/
theorem Reading.Shows.keeps {s s' : Store} {reply : Except Interruption (Reply Value)}
    {answer : Except Interruption (Reply D)} (h : R.Shows s reply answer) (kept : s.Keeps own s') :
    R.Shows s' reply answer := by
  cases h with
  | element hm => exact .element (R.means_keeps kept hm)
  | truth => exact .truth
  | done => exact .done
  | error => exact .error

end Answers

namespace Setting

variable {D : Type} {E : Setting D}

/-- How a call ends, told by what the supply answers. -/
inductive Answered (E : Setting D) (s : Store) (u : Supply D) (W : List SourceId) (budget : Nat)
    (request : Request) : EStateM.Result Interruption Store (Reply Value) → Prop
  | value {reply : Reply Value} {answer : Reply D} {w : Supply D} {s' : Store} :
    Answers E.reading (s.sequence request.sequence).pipe request u (.ok answer) w →
    E.reading.Shows s' (.ok reply) (.ok answer) →
    E.Left s (s.sequence request.sequence).source w W s' →
    Answered E s u W budget request (.ok reply s')
  | error {e : Interruption} {w : Supply D} {s' : Store} :
    Answers E.reading (s.sequence request.sequence).pipe request u (.error e) w →
    E.Left s (s.sequence request.sequence).source w W s' →
    Answered E s u W budget request (.error e s')
  | short {s' : Store} : Short (Answers E.reading (s.sequence request.sequence).pipe request u) u
      budget → Answered E s u W budget request (.error .outOfFuel s')

/-- How skipping ends. -/
inductive Skipped (E : Setting D) (s : Store) (id : SourceId) (u : Supply D) (W : List SourceId)
    (budget n : Nat) : EStateM.Result Interruption Store Unit → Prop
  | value {w : Supply D} {s' : Store} : Skips E.reading n u (.ok ()) w → E.Left s id w W s' →
    Skipped E s id u W budget n (.ok () s')
  | error {e : Interruption} {w : Supply D} {s' : Store} : Skips E.reading n u (.error e) w →
    E.Left s id w W s' → Skipped E s id u W budget n (.error e s')
  | short {s' : Store} : Short (Skips E.reading n u) u budget →
    Skipped E s id u W budget n (.error .outOfFuel s')

section Requests

variable {s : Store} {u : Supply D} {W : List SourceId} {q : SequenceId} {p : Position}

/-- To ask for the end is answered as the supply says. -/
theorem Stands.answered_atEnd (h : E.Stands s (s.sequence q).source u W)
    (kept : E.start.Keeps E.own s) (hq : E.watched q) (budget : Nat) :
    E.Answered s u W budget (.atEnd q) ((Request.atEnd q).perform E.call budget s) := by
  have hout := lookahead_outcome (E.reads budget u.height) hq kept h (Nat.le_refl _)
  generalize hres : Sequence.lookahead _ _ _ q s = res at hout
  cases hout with
  | found hseek hfound =>
    rw [Request.perform, Action.bind_ok (Sequence.atEnd_ok hres)]
    exact .value (.atEnd hseek) .truth hfound.2.1
  | ended hseek left =>
    rw [Request.perform, Action.bind_ok (Sequence.atEnd_ok hres)]
    exact .value (.atEnd hseek) .truth left
  | failed hseek left =>
    rw [Request.perform, Action.bind_error (Sequence.atEnd_error hres)]
    exact .error (.atEnd_error hseek) left
  | short hshort =>
    rw [Request.perform, Action.bind_error (Sequence.atEnd_error hres)]
    refine .short fun a w hanswer => ?_
    cases hanswer with
    | atEnd hseek | atEnd_error hseek => exact hshort _ _ hseek

/-- To look at the next element is answered as the supply says. -/
theorem Stands.answered_peek (h : E.Stands s (s.sequence q).source u W)
    (kept : E.start.Keeps E.own s) (hq : E.watched q) (budget : Nat) :
    E.Answered s u W budget (.peek q p) ((Request.peek q p).perform E.call budget s) := by
  have hout := lookahead_outcome (E.reads budget u.height) hq kept h (Nat.le_refl _)
  generalize hres : Sequence.lookahead _ _ _ q s = res at hout
  cases hout with
  | found hseek hfound =>
    rw [Request.perform, Action.bind_ok (Sequence.peek_some hres)]
    exact .value (.peek hseek) (.element hfound.1) hfound.2.1
  | ended hseek left =>
    rw [Request.perform, Action.bind_error (Sequence.peek_none hres)]
    exact .error (.peek_exhausted hseek) left
  | failed hseek left =>
    rw [Request.perform, Action.bind_error (Sequence.peek_error hres)]
    exact .error (.peek_error hseek) left
  | short hshort =>
    rw [Request.perform, Action.bind_error (Sequence.peek_error hres)]
    refine .short fun a w hanswer => ?_
    cases hanswer with
    | peek hseek | peek_exhausted hseek | peek_error hseek => exact hshort _ _ hseek

/-- To take it is answered as the supply says, and the supply drops it. -/
theorem Stands.answered_next (h : E.Stands s (s.sequence q).source u W)
    (kept : E.start.Keeps E.own s) (hq : E.watched q) (budget : Nat) :
    E.Answered s u W budget (.next q p) ((Request.next q p).perform E.call budget s) := by
  have hout := lookahead_outcome (E.reads budget u.height) hq kept h (Nat.le_refl _)
  generalize hres : Sequence.lookahead _ _ _ q s = res at hout
  cases hout with
  | @found x w v s₁ hseek hfound =>
    obtain ⟨hm, left, holds⟩ := hfound
    obtain ⟨s₂, hnext, left₂⟩ | ⟨s₂, hnext, hshort⟩ := next_of_found (E.reads budget u.height) hq kept
      hres left holds (Nat.le_of_eq hseek.height_eq) p
    · rw [Request.perform, Action.bind_ok hnext]
      have hm₂ := E.reading.means_keeps (left₂.keeps.mono left₂.stands.own_of_mem) hm
      exact .value (.next hseek) (.element hm₂) (left.trans left₂)
    · rw [Request.perform, Action.bind_error hnext]
      refine .short fun a z _ => ?_
      rw [hseek.height_eq] at hshort
      omega
  | ended hseek left =>
    rw [Request.perform, Action.bind_error (Sequence.next_none hres)]
    exact .error (.next_exhausted hseek) left
  | failed hseek left =>
    rw [Request.perform, Action.bind_error (Sequence.next_error hres)]
    exact .error (.next_error hseek) left
  | short hshort =>
    rw [Request.perform, Action.bind_error (Sequence.next_error hres)]
    refine .short fun a w hanswer => ?_
    cases hanswer with
    | @next _ _ _ w _ hseek =>
      have := hshort _ _ hseek
      have := w.moved_lt_drop
      omega
    | next_exhausted hseek | next_error hseek => exact hshort _ _ hseek

/-- To skip is to take again and again: by induction on the number. -/
theorem Stands.skipped {n : Nat} (h : E.Stands s (s.sequence q).source u W)
    (kept : E.start.Keeps E.own s) (hq : E.watched q) (budget : Nat) :
    E.Skipped s (s.sequence q).source u W budget n
      (Sequence.skip E.call (.ofDepth E.call budget) q n s) := by
  induction n generalizing s u with
  | zero => exact .value .enough h.left
  | succ n ih =>
    have hread := E.reads budget u.height false (s.sequence q).position kept h (Nat.le_refl _)
    rw [Sequence.skip, Action.view_bind]
    generalize hres : Sequence.raw _ _ false _ _ s = res at hread
    cases hread with
    | ended hlook left =>
      rw [Action.bind_ok hres]
      exact .value (.ended hlook) left
    | failed hlook left =>
      rw [Action.bind_error hres]
      exact .error (.failed hlook) left
    | short hshort =>
      rw [Action.bind_error hres]
      refine .short fun a z hskips => ?_
      cases hskips with
      | ended hlook | failed hlook => exact hshort _ _ hlook
      | @more _ _ w _ _ _ hlook hrest =>
        have := hshort _ _ hlook
        have := hrest.moved_le
        have := w.moved_lt_drop
        omega
    | @found x w v s₁ hlook hfound =>
      obtain ⟨-, left, -⟩ := hfound
      have left : E.Left s (s.sequence q).source w.drop W s₁ := left
      have hsource := left.keeps.source_eq (exists_of_kept kept hq)
      rw [Action.bind_ok hres]
      have hrest := ih (by rw [hsource]; exact left.stands) (left.kept kept)
      rw [hsource] at hrest
      show E.Skipped s _ u W budget (n + 1) (Sequence.skip E.call _ q n s₁)
      generalize Sequence.skip _ _ q n s₁ = res₁ at hrest
      cases hrest with
      | value hskips left' => exact .value (.more hlook hskips) (left.trans left')
      | error hskips left' => exact .error (.more hlook hskips) (left.trans left')
      | short hshort =>
        refine .short fun a z hskips => ?_
        cases hskips with
        | ended hlook' | failed hlook' => cases (hlook.unique hlook').1
        | more hlook' hrest' =>
          obtain ⟨-, rfl⟩ := hlook.unique hlook'
          have := hshort _ _ hrest'
          have := hrest'.moved_le
          have := w.moved_lt_drop
          have := hlook.moved_le
          have := hlook.height_eq
          have := w.height_drop
          omega

/-- To skip is answered as the supply says. -/
theorem Stands.answered_skip {n : Nat} (h : E.Stands s (s.sequence q).source u W)
    (kept : E.start.Keeps E.own s) (hq : E.watched q) (budget : Nat) :
    E.Answered s u W budget (.skip q n) ((Request.skip q n).perform E.call budget s) := by
  have hout := h.skipped kept hq budget (n := n)
  generalize hres : Sequence.skip _ _ q n s = res at hout
  cases hout with
  | value hskips left =>
    rw [Request.perform, Action.bind_ok hres]
    exact .value (.skip hskips) .done left
  | error hskips left =>
    rw [Request.perform, Action.bind_error hres]
    exact .error (.skip_error hskips) left
  | short hshort =>
    rw [Request.perform, Action.bind_error hres]
    refine .short fun a w hanswer => ?_
    cases hanswer with
    | skip hskips | skip_error hskips => exact hshort _ _ hskips

end Requests

/-- **A request to a sequence whose source stands ends as the supply answers.** -/
theorem Stands.answered {s : Store} {u : Supply D} {W : List SourceId} {request : Request}
    (h : E.Stands s (s.sequence request.sequence).source u W) (kept : E.start.Keeps E.own s)
    (hq : E.watched request.sequence) (budget : Nat) :
    E.Answered s u W budget request (request.perform E.call budget s) := by
  cases request with
  | next q p => exact h.answered_next kept hq budget
  | peek q p => exact h.answered_peek kept hq budget
  | atEnd q => exact h.answered_atEnd kept hq budget
  | skip q n => exact h.answered_skip kept hq budget

end Setting

end Abacus
