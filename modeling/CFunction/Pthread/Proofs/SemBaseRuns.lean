import CFunction.Pthread.SemBase

/-!
# Runs of `sem/base`

The threads are at the items number `p` and `c`, of which only the slots are in the state. The
semaphores keep `p` between `c` and `c + NUM`, and inside these bounds equal slots are equal items.
-/

namespace CFunction
namespace SemBase

open BoundedBuffer

namespace ProducerPc

/-- `producer` has taken a place from `blank_number` for an item that it still counts as its own. -/
@[simp] def claimed : ProducerPc → Nat
  | .waitBlank => 0
  | _ => 1

/-- The item is in its slot. -/
@[simp] def stored : ProducerPc → Nat
  | .print | .postProduct | .advance => 1
  | _ => 0

/-- `product_number` counts the item. -/
@[simp] def posted : ProducerPc → Nat
  | .advance => 1
  | _ => 0

end ProducerPc

namespace ConsumerPc

/-- `consumer` has taken the item from `product_number`. -/
@[simp] def taken : ConsumerPc → Nat
  | .waitProduct => 0
  | _ => 1

@[simp] def printed : ConsumerPc → Nat
  | .clear | .postBlank | .advance => 1
  | _ => 0

/-- `blank_number` counts the place. -/
@[simp] def posted : ConsumerPc → Nat
  | .advance => 1
  | _ => 0

/-- Between `sem_wait` and `sem_post`. -/
def Inside : ConsumerPc → Prop
  | .print | .clear | .postBlank => True
  | _ => False

end ConsumerPc

/-- What holds in every state of a run, where `producer` is at item `p` and `consumer` at `c`. -/
structure Holds (es : List Event) (s : State) (p c : Nat) : Prop where
  producer_eq : s.producerI = p % NUM
  consumer_eq : s.consumerI = c % NUM
  blank_eq : s.blankNumber + (p + s.producer.claimed) = NUM + (c + s.consumer.posted)
  product_eq : s.productNumber + (c + s.consumer.taken) = p + s.producer.posted
  produced_length : (produced es).length = p + s.producer.stored
  consumed_eq : consumed es = (produced es).take (c + s.consumer.printed)
  window : Window s.queue (produced es) (c + s.consumer.printed)
  values : ∀ v ∈ produced es, 1 ≤ v ∧ v ≤ 1000

theorem holds_init (queue : Fin NUM → Int) : Holds [] (.init queue) 0 0 where
  producer_eq := rfl
  consumer_eq := rfl
  blank_eq := rfl
  product_eq := rfl
  produced_length := rfl
  consumed_eq := rfl
  window := window_nil queue 0
  values := by simp [produced]

theorem slot_mod (i : Nat) : slot NUM (i % NUM) = slot NUM i := by
  apply Fin.ext
  exact Nat.mod_mod i NUM

theorem produced_consumer (es : List Event) (pc : ConsumerPc) (value : Int) :
    produced (es ++ [.consumer pc value]) = produced es := by
  simp [produced]

theorem consumed_producer (es : List Event) (pc : ProducerPc) (value : Int) :
    consumed (es ++ [.producer pc value]) = consumed es := by
  simp [consumed]

theorem produced_of_ne_store (es : List Event) {pc : ProducerPc} (h : pc ≠ .store) (value : Int) :
    produced (es ++ [.producer pc value]) = produced es := by
  cases pc <;> simp_all [produced]

theorem consumed_of_ne_print (es : List Event) {pc : ConsumerPc} (h : pc ≠ .print) (value : Int) :
    consumed (es ++ [.consumer pc value]) = consumed es := by
  cases pc <;> simp_all [consumed]

variable {es : List Event} {s s' : State} {p c : Nat}

/-- The item that the consumer is about to print. -/
theorem Holds.print_value (h : Holds es s p c) (hpc : s.consumer = .print) :
    (produced es)[c]? = some (s.queue (slot NUM s.consumerI)) := by
  have hproduct := h.product_eq
  have hlen := h.produced_length
  have hwindow := h.window
  have hposted : s.producer.posted ≤ s.producer.stored := by
    cases s.producer <;> simp
  simp only [hpc, ConsumerPc.taken] at hproduct
  simp only [hpc, ConsumerPc.printed, Nat.add_zero] at hwindow
  have hc : c < (produced es).length := by omega
  have hget := List.getElem?_eq_getElem hc
  rw [hget, h.consumer_eq, slot_mod, hwindow c _ (Nat.le_refl c) hget]

theorem Holds.producerStep {value : Int} (h : Holds es s p c) (hvalue : 1 ≤ value ∧ value ≤ 1000)
    (hstep : producerStep value s = some s') :
    ∃ p', Holds (es ++ [.producer s.producer value]) s' p' c := by
  obtain ⟨hproducer, hconsumer, hblank, hproduct, hlen, hconsumed, hwindow, hvalues⟩ := h
  obtain ⟨queue, blank, product, producer, i, consumer, j⟩ := s
  dsimp only at hproducer hconsumer hblank hproduct hlen hconsumed hwindow
  rw [← consumed_producer es producer value] at hconsumed
  have hother : producer ≠ .store → produced (es ++ [.producer producer value]) = produced es :=
    fun hne => produced_of_ne_store es hne value
  cases producer with
  | waitBlank =>
    rw [← hother (by simp)] at hlen hconsumed hwindow hvalues
    obtain ⟨v, hwait, hs⟩ := bind_semWait_eq_some_iff.1 hstep
    obtain rfl := Option.some.inj hs
    dsimp only [ProducerPc.claimed] at hwait hblank
    have hclaim : v + (p + 1) = NUM + (c + consumer.posted) := by omega
    exact ⟨p, hproducer, hconsumer, hclaim, hproduct, hlen, hconsumed, hwindow, hvalues⟩
  | store =>
    obtain rfl := Option.some.inj hstep
    have hall : produced (es ++ [.producer .store value]) = produced es ++ [value] := by
      simp [produced]
    have hposted : consumer.posted ≤ consumer.printed := by cases consumer <;> simp
    have htaken : consumer.printed ≤ consumer.taken := by cases consumer <;> simp
    dsimp only [ProducerPc.claimed, ProducerPc.posted, ProducerPc.stored] at hblank hproduct hlen
    have hroom : (produced es).length < c + consumer.printed + NUM := by omega
    have hput := hwindow.put hroom value
    rw [hlen, Nat.add_zero, ← slot_mod, ← hproducer, ← hall] at hput
    have hlen' : (produced (es ++ [.producer .store value])).length = p + 1 := by
      rw [hall, List.length_append, List.length_singleton, hlen]
    have hconsumed' : consumed (es ++ [.producer .store value]) =
        (produced (es ++ [.producer .store value])).take (c + consumer.printed) := by
      rw [hconsumed, hall, List.take_append_of_le_length (by omega)]
    refine ⟨p, hproducer, hconsumer, hblank, hproduct, hlen', hconsumed', hput, ?_⟩
    intro v hv
    rw [hall] at hv
    rcases List.mem_append.1 hv with hv | hv
    · exact hvalues v hv
    · rw [List.mem_singleton.1 hv]
      exact hvalue
  | print =>
    rw [← hother (by simp)] at hlen hconsumed hwindow hvalues
    obtain rfl := Option.some.inj hstep
    exact ⟨p, hproducer, hconsumer, hblank, hproduct, hlen, hconsumed, hwindow, hvalues⟩
  | postProduct =>
    rw [← hother (by simp)] at hlen hconsumed hwindow hvalues
    obtain rfl := Option.some.inj hstep
    dsimp only [ProducerPc.posted] at hproduct
    have hpost : product + 1 + (c + consumer.taken) = p + 1 := by omega
    exact ⟨p, hproducer, hconsumer, hblank, hpost, hlen, hconsumed, hwindow, hvalues⟩
  | advance =>
    rw [← hother (by simp)] at hlen hconsumed hwindow hvalues
    obtain rfl := Option.some.inj hstep
    have hnext : (i + 1) % NUM = (p + 1) % NUM := by rw [hproducer, Nat.mod_add_mod]
    exact ⟨p + 1, hnext, hconsumer, hblank, hproduct, hlen, hconsumed, hwindow, hvalues⟩

theorem Holds.consumerStep (h : Holds es s p c) (hstep : consumerStep s = some s') :
    ∃ c', Holds (es ++ [.consumer s.consumer (s.queue (slot NUM s.consumerI))]) s' p c' := by
  have hvalue := h.print_value
  obtain ⟨hproducer, hconsumer, hblank, hproduct, hlen, hconsumed, hwindow, hvalues⟩ := h
  obtain ⟨queue, blank, product, producer, i, consumer, j⟩ := s
  dsimp only at hproducer hconsumer hblank hproduct hlen hconsumed hwindow hvalue
  rw [← produced_consumer es consumer (queue (slot NUM j))] at hlen hwindow hvalues
  have hother : consumer ≠ .print →
      consumed (es ++ [.consumer consumer (queue (slot NUM j))]) =
        (produced (es ++ [.consumer consumer (queue (slot NUM j))])).take
          (c + consumer.printed) := by
    intro hne
    rw [consumed_of_ne_print es hne, produced_consumer, hconsumed]
  cases consumer with
  | waitProduct =>
    obtain ⟨v, hwait, hs⟩ := bind_semWait_eq_some_iff.1 hstep
    obtain rfl := Option.some.inj hs
    dsimp only [ConsumerPc.taken] at hwait hproduct
    have htake : v + (c + 1) = p + producer.posted := by omega
    exact ⟨c, hproducer, hconsumer, hblank, htake, hlen, hother (by simp), hwindow, hvalues⟩
  | print =>
    obtain rfl := Option.some.inj hstep
    have hprinted : consumed (es ++ [.consumer .print (queue (slot NUM j))]) =
        (produced (es ++ [.consumer .print (queue (slot NUM j))])).take (c + 1) := by
      have hold : consumed es = (produced es).take c := hconsumed
      have hall : consumed (es ++ [.consumer .print (queue (slot NUM j))]) =
          consumed es ++ [queue (slot NUM j)] := by simp [consumed]
      rw [hall, hold, produced_consumer, List.take_add_one, hvalue rfl]
      rfl
    exact ⟨c, hproducer, hconsumer, hblank, hproduct, hlen, hprinted,
      hwindow.mono (Nat.le_succ c), hvalues⟩
  | clear =>
    obtain rfl := Option.some.inj hstep
    dsimp only [ConsumerPc.posted] at hblank
    have hstored : producer.stored ≤ producer.claimed := by cases producer <;> simp
    rw [produced_consumer] at hlen hwindow
    have hclear := hwindow.overwrite (by omega) 0
    rw [← slot_mod, ← hconsumer, ← produced_consumer es .clear (queue (slot NUM j))] at hclear
    rw [← produced_consumer es .clear (queue (slot NUM j))] at hlen
    exact ⟨c, hproducer, hconsumer, hblank, hproduct, hlen, hother (by simp), hclear, hvalues⟩
  | postBlank =>
    obtain rfl := Option.some.inj hstep
    dsimp only [ConsumerPc.posted] at hblank
    have hpost : blank + 1 + (p + producer.claimed) = NUM + (c + 1) := by omega
    exact ⟨c, hproducer, hconsumer, hpost, hproduct, hlen, hother (by simp), hwindow, hvalues⟩
  | advance =>
    obtain rfl := Option.some.inj hstep
    have hnext : (j + 1) % NUM = (c + 1) % NUM := by rw [hconsumer, Nat.mod_add_mod]
    exact ⟨c + 1, hproducer, hnext, hblank, hproduct, hlen, hother (by simp), hwindow, hvalues⟩

theorem run_holds {queue : Fin NUM → Int} (run : Run Step (.init queue) es s) :
    ∃ p c, Holds es s p c := by
  induction run with
  | nil => exact ⟨0, 0, holds_init queue⟩
  | snoc _ hstep ih =>
    obtain ⟨p, c, hholds⟩ := ih
    cases hstep with
    | producer hvalue h =>
      obtain ⟨p', hholds'⟩ := hholds.producerStep hvalue h
      exact ⟨p', c, hholds'⟩
    | consumer h =>
      obtain ⟨c', hholds'⟩ := hholds.consumerStep h
      exact ⟨p, c', hholds'⟩

/-- What the semaphores guarantee after the steps `es`. -/
structure NeverCollides (es : List Event) (s : State) : Prop where
  /-- The producer is not about to write the slot that the consumer is at. -/
  apart : s.producer = .store → s.consumer.Inside → s.producerI ≠ s.consumerI
  /-- The values printed are the first ones stored. -/
  in_order : consumed es <+: produced es
  not_cleared : 0 ∉ consumed es
  /-- The producer is about to write the slot of an item that is consumed. -/
  keeps : s.producer = .store → ∀ j < (produced es).length,
    slot NUM j = slot NUM s.producerI → j < (consumed es).length

theorem Holds.neverCollides (h : Holds es s p c) : NeverCollides es s := by
  have hfive : NUM = 5 := rfl
  have hblank := h.blank_eq
  have hproduct := h.product_eq
  have hlen := h.produced_length
  have hmod : ∀ i j, slot NUM i = slot NUM j ↔ i % NUM = j % NUM := by
    intro i j
    exact Fin.ext_iff
  refine ⟨?_, ?_, ?_, ?_⟩
  · intro hpc hinside hsame
    simp only [hpc, ProducerPc.claimed, ProducerPc.posted] at hblank hproduct
    have htaken : s.consumer.taken = 1 ∧ s.consumer.posted = 0 := by
      cases hc : s.consumer <;> simp_all [ConsumerPc.Inside]
    rw [h.producer_eq, h.consumer_eq] at hsame
    exact slot_ne (i := c) (j := p) (by omega) (by omega) ((hmod c p).2 hsame.symm)
  · rw [h.consumed_eq]
    exact List.take_prefix _ _
  · intro hzero
    rw [h.consumed_eq] at hzero
    have hpos := (h.values 0 (List.mem_of_mem_take hzero)).1
    omega
  · intro hpc j hj hslot
    simp only [hpc, ProducerPc.claimed, ProducerPc.stored] at hblank hlen
    have hposted : s.consumer.posted ≤ s.consumer.printed := by cases s.consumer <;> simp
    rw [h.producer_eq, slot_mod] at hslot
    have hfar : j + NUM ≤ p := by
      by_contra hnear
      exact slot_ne (by omega) (by omega) hslot
    rw [h.consumed_eq, List.length_take]
    omega

/-- In every interleaving the two threads keep apart. -/
theorem sem_base_never_collides {queue : Fin NUM → Int} (run : Run Step (.init queue) es s) :
    NeverCollides es s := by
  obtain ⟨p, c, hholds⟩ := run_holds run
  exact hholds.neverCollides

/-- The producer is about to store its second item while the consumer clears the first. -/
theorem sem_base_never_collides_two : ∃ es s, NeverCollides es s ∧ s.producer = .store ∧
    s.consumer = .clear ∧ consumed es = [42] := by
  have hproduced : Run Step (.init fun _ => 0)
      [.producer .waitBlank 42, .producer .store 42, .producer .print 42,
        .producer .postProduct 42, .producer .advance 42, .producer .waitBlank 7] _ :=
    (((((Run.nil.snoc (.producer (by decide) rfl)).snoc (.producer (by decide) rfl)).snoc
      (.producer (by decide) rfl)).snoc (.producer (by decide) rfl)).snoc
        (.producer (by decide) rfl)).snoc (.producer (by decide) rfl)
  have hconsumed := (hproduced.snoc (.consumer rfl)).snoc (.consumer rfl)
  exact ⟨_, _, sem_base_never_collides hconsumed, rfl, rfl, by decide⟩

end SemBase
end CFunction
