import Mathlib

/-!
# Processes: outcomes, channels, tables of requests, timers

What a program is made of that takes requests, answers them on channels, and waits for timers.

* `Ensures`: what holds of a computation when it returns, and when it ends early; rules for a
  sequence and for a loop.
* `Mailbox`: numbered channels with room for one value each. A send on a channel that is full
  blocks, and a channel on which nothing was sent is not full (`Mailbox.send_eq`).
* `channelsOf`: the channels of the requests in a table. One that is taken out goes to another list
  (`perm_of_lookup`).
* `Timers`: timers that run, fire, are stopped, and whose one value is received.
-/

namespace KvStore.Machine

/-! ## Outcomes -/

section Ensures

universe u

variable {ε α : Type*} {β γ σ : Type u} {E : ε → Prop} {Q Q' : β → Prop} {R : γ → Prop}

/-- `Q` holds of what is returned, `E` of what it ends early with. -/
def Ensures (x : Except ε β) (E : ε → Prop) (Q : β → Prop) : Prop :=
  match x with
  | .error e => E e
  | .ok b => Q b

namespace Ensures

theorem mono {x : Except ε β} (h : Ensures x E Q) (hQ : ∀ b, Q b → Q' b) : Ensures x E Q' := by
  cases x with
  | error e => exact h
  | ok b => exact hQ b h

theorem and {x : Except ε β} {E' : ε → Prop} (h : Ensures x E Q) (h' : Ensures x E' Q') :
    Ensures x E fun b => Q b ∧ Q' b := by
  cases x with
  | error e => exact h
  | ok b => exact ⟨h, h'⟩

theorem bind {x : Except ε β} {f : β → Except ε γ} (h : Ensures x E Q)
    (hf : ∀ b, Q b → Ensures (f b) E R) : Ensures (x >>= f) E R := by
  cases x with
  | error e => exact h
  | ok b => exact hf b h

/-- A loop, with what is left of the list in its invariant. -/
theorem foldlM {f : σ → α → Except ε σ} {I : List α → σ → Prop}
    (hstep : ∀ a as s, I (a :: as) s → Ensures (f s a) E (I as)) {as : List α} {s : σ}
    (h : I as s) : Ensures (as.foldlM f s) E (I []) := by
  induction as generalizing s with
  | nil => exact h
  | cons a as ih =>
    rw [List.foldlM_cons]
    exact (hstep a as s h).bind fun s' hs' => ih hs'

end Ensures

end Ensures

/-! ## Channels -/

/-- Channels that hold one value, with a log of what was sent on them. -/
structure Mailbox (α : Type*) where
  buffer : ℕ → Option α
  log : List (ℕ × α)
  sent : ∀ ch, buffer ch ≠ none → ch ∈ log.map Prod.fst

namespace Mailbox

variable {α : Type*} {b : Mailbox α} {ch : ℕ}

/-- Nothing has been sent. -/
def empty : Mailbox α := ⟨fun _ => none, [], fun _ h => absurd rfl h⟩

/-- The channels on which something was sent, in order. -/
def answered (b : Mailbox α) : List ℕ := b.log.map Prod.fst

/-- The value is put into the channel. -/
def push (b : Mailbox α) (ch : ℕ) (v : α) : Mailbox α where
  buffer := Function.update b.buffer ch (some v)
  log := b.log ++ [(ch, v)]
  sent := fun c hc => by
    rw [List.map_append, List.mem_append]
    by_cases h : c = ch
    · exact Or.inr (by simp [h])
    · rw [Function.update_of_ne h] at hc
      exact Or.inl (b.sent c hc)

/-- A send, which blocks if the channel is full. -/
def send (b : Mailbox α) (ch : ℕ) (v : α) : Option (Mailbox α) :=
  if (b.buffer ch).isNone then some (b.push ch v) else none

/-- The value is taken from the channel. -/
def receive (b : Mailbox α) (ch : ℕ) : Mailbox α where
  buffer := Function.update b.buffer ch none
  log := b.log
  sent := fun c hc => by
    by_cases h : c = ch
    · rw [h, Function.update_self] at hc
      exact absurd rfl hc
    · rw [Function.update_of_ne h] at hc
      exact b.sent c hc

@[simp] theorem answered_empty : (empty : Mailbox α).answered = [] := rfl

@[simp] theorem answered_push (v : α) : (b.push ch v).answered = b.answered ++ [ch] :=
  List.map_append

@[simp] theorem answered_receive : (b.receive ch).answered = b.answered := rfl

/-- A channel on which nothing was sent takes a value. -/
theorem send_eq (h : ch ∉ b.answered) (v : α) : b.send ch v = some (b.push ch v) := by
  have hnone : b.buffer ch = none := by
    by_contra hne
    exact h (b.sent ch hne)
  rw [send, hnone]
  rfl

end Mailbox

/-! ## Tables of requests -/

section Tables

variable {κ β : Type*} {f : β → ℕ} {t : AList fun _ : κ => β} {k : κ} {q : β}

theorem nodup_of_subperm {l l' : List β} (h' : l'.Nodup) (h : l.Subperm l') : l.Nodup := by
  obtain ⟨l₁, hperm, hsub⟩ := h
  exact hperm.nodup_iff.mp (h'.sublist hsub)

/-- The channels of the requests in the table. -/
def channelsOf (f : β → ℕ) (t : AList fun _ : κ => β) : List ℕ := t.entries.map fun x => f x.2

@[simp] theorem channelsOf_empty : channelsOf f (∅ : AList fun _ : κ => β) = [] := rfl

variable [DecidableEq κ]

theorem channelsOf_erase : (channelsOf f (t.erase k)).Sublist (channelsOf f t) :=
  (List.kerase_sublist k t.entries).map _

theorem channelsOf_insert : channelsOf f (t.insert k q) = f q :: channelsOf f (t.erase k) := by
  rw [channelsOf, AList.entries_insert]
  rfl

/-- A request that is taken out of the table leaves the others. -/
theorem channelsOf_of_lookup (h : t.lookup k = some q) :
    (f q :: channelsOf f (t.erase k)).Perm (channelsOf f t) := by
  have hmem : k ∈ t.entries.keys :=
    List.dlookup_isSome.mp (by rw [show t.entries.dlookup k = some q from h]; rfl)
  obtain ⟨q', l₁, l₂, hk, hentries, herase⟩ := List.exists_of_kerase hmem
  have hq : q' = q := by
    have hlookup : t.entries.dlookup k = some q' :=
      List.mem_dlookup t.nodupKeys (hentries ▸ List.mem_append_right _ List.mem_cons_self)
    exact Option.some.inj (hlookup.symm.trans h)
  have hleft : channelsOf f (t.erase k) = (l₁ ++ l₂).map fun x => f x.2 := congrArg _ herase
  rw [hleft, channelsOf, hentries, List.map_append, List.map_append, List.map_cons, hq]
  exact List.perm_middle.symm

/-- The channel of a request that is taken out of the table goes to another list. -/
theorem perm_of_lookup (h : t.lookup k = some q) (l : List ℕ) :
    (l ++ [f q] ++ channelsOf f (t.erase k)).Perm (l ++ channelsOf f t) := by
  rw [List.append_assoc, List.singleton_append]
  exact (channelsOf_of_lookup h).append_left l

theorem notMem_of_lookup (h : t.lookup k = some q) {l : List ℕ} (hd : (l ++ channelsOf f t).Nodup) :
    f q ∉ l :=
  fun hmem => (List.disjoint_of_nodup_append hd) hmem
    ((channelsOf_of_lookup h).subset List.mem_cons_self)

end Tables

/-! ## Timers -/

/-- A timer runs until it fires or is stopped; its one value is received once. -/
inductive TimerState
  | running
  | fired
  | spent
  deriving DecidableEq

/-- The timers that were made, by number. -/
structure Timers where
  states : List TimerState := []

namespace Timers

variable {ts : Timers} {t u : ℕ}

/-- A new timer runs. -/
def new (ts : Timers) : Timers := ⟨ts.states ++ [.running]⟩

/-- The number of the next timer. -/
def next (ts : Timers) : ℕ := ts.states.length

/-- The timer goes from a state to another, if it is in the first. -/
def move (ts : Timers) (t : ℕ) (old new : TimerState) : Timers :=
  if ts.states[t]? = some old then ⟨ts.states.set t new⟩ else ts

/-- The timer fires. -/
def fire (ts : Timers) (t : ℕ) : Timers := ts.move t .running .fired

/-- The timer is stopped; if it has fired, its value stays. -/
def stop (ts : Timers) (t : ℕ) : Timers := ts.move t .running .spent

/-- The value of the timer is received. -/
def receive (ts : Timers) (t : ℕ) : Timers := ts.move t .fired .spent

/-- The timer has a value to be received, or will have. -/
def Armed (ts : Timers) (t : ℕ) : Prop :=
  ts.states[t]? = some .running ∨ ts.states[t]? = some .fired

theorem armed_new : ts.new.Armed ts.next := Or.inl List.getElem?_concat_length

theorem Armed.fire (h : ts.Armed t) (u : ℕ) : (ts.fire u).Armed t := by
  rw [Timers.fire, move]
  split_ifs with hu
  · by_cases heq : u = t
    · subst heq
      exact Or.inr (List.getElem?_set_self (List.getElem?_eq_some_iff.mp hu).1)
    · rw [Armed, List.getElem?_set_ne heq]
      exact h
  · exact h

end Timers

end KvStore.Machine
