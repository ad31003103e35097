import Emu8085.Proofs.ReadLocality
import Emu8085.Proofs.RunLength

/-!
# Listings and runs

A listing goes from each instruction to the cell behind it, and so does a machine that takes no
branch. As long as its steps leave the code of the listing alone, the machine fetches what the
listing shows (`history_eq_listing`, by induction on the listing). Only the last instruction may
reach past the last address, and nothing is said about where it leads.
-/
namespace Emu8085

namespace Located

/-- The cells that an instruction was decoded from, those past the last address included. -/
def cells (i : Located) : List Word :=
  (List.range (1 + i.width)).map fun k => i.address + BitVec.ofNat 16 k

theorem cells_fetch (m : Memory) (address : Word) :
    (m.fetch address).cells = m.codeCells address := by
  rw [cells, Memory.width_fetch]
  rfl

/-- An instruction that has one behind it does not wrap. -/
theorem next_of_successor? {i : Located} {address : Word} (h : i.successor? = some address) :
    i.next = address := by
  rw [successor?, address?] at h
  split at h
  next inside =>
    cases h
    rw [next, BitVec.ofNat_add, BitVec.ofNat_add, BitVec.ofNat_toNat, BitVec.setWidth_eq]
    rfl
  next => cases h

end Located

namespace Machine

/-- The step goes on to the instruction behind: it takes no branch and does not halt. -/
structure Advances (s : Machine) : Prop where
  pc : s.step.2.registers.pc = s.fetched.next
  running : s.step.2.isHalted = false

instance (s : Machine) : Decidable s.Advances :=
  decidable_of_iff (s.step.2.registers.pc = s.fetched.next ∧ s.step.2.isHalted = false)
    ⟨fun ⟨pc, running⟩ => ⟨pc, running⟩, fun h => ⟨h.pc, h.running⟩⟩

/-- The step changes no byte of the instructions listed. -/
def KeepsCode (s : Machine) (listing : List Located) : Prop :=
  ∀ i ∈ listing, ∀ a ∈ i.cells, s.step.2.memory.read a = s.memory.read a

/-- By induction on the count: the first instruction is fetched from cells that are still as they
were listed, and the step goes on to the next one. After the last one it may go anywhere. -/
theorem history_eq_listing {m : Memory} {s : Machine} {count : Nat} {listing : List Located}
    (listed : m.disassemble count s.registers.pc = listing)
    (code : ∀ i ∈ listing, ∀ a ∈ i.cells, s.memory.read a = m.read a)
    (straight : ∀ k, k + 1 < listing.length → (s.after k).Advances)
    (spared : ∀ k, k + 1 < listing.length → (s.after k).KeepsCode listing) :
    (s.history listing.length).map Entry.fetched = listing := by
  induction count generalizing s listing with
  | zero =>
    subst listed
    rfl
  | succ count ih =>
    rw [Memory.disassemble_succ] at listed
    have fetched : s.fetched = m.fetch s.registers.pc := by
      refine Memory.fetch_congr fun a ha => code (m.fetch s.registers.pc) ?_ a ?_
      · rw [← listed]
        exact List.mem_cons_self ..
      · rwa [Located.cells_fetch]
    cases found : (m.fetch s.registers.pc).successor? with
    | none =>
      rw [found] at listed
      subst listed
      exact congrArg (fun i => [i]) fetched
    | some next =>
      replace listed : m.fetch s.registers.pc :: m.disassemble count next = listing := by
        rwa [found] at listed
      subst listed
      rw [List.length_cons, history_step, List.map_cons]
      refine congrArg₂ List.cons fetched ?_
      rcases Nat.eq_zero_or_pos (m.disassemble count next).length with last | more
      · rw [List.eq_nil_of_length_eq_zero last]
        rfl
      have first : 0 + 1 < (m.fetch s.registers.pc :: m.disassemble count next).length := by
        rw [List.length_cons]
        omega
      have advanced : s.Advances := straight 0 first
      have untouched : s.KeepsCode (m.fetch s.registers.pc :: m.disassemble count next) :=
        spared 0 first
      apply ih
      · rw [advanced.pc, fetched, Located.next_of_successor? found]
      · intro j hj a ha
        have later := List.mem_cons_of_mem (m.fetch s.registers.pc) hj
        rw [untouched j later a ha]
        exact code j later a ha
      · intro k hk
        rw [after_step]
        exact straight (k + 1) (Nat.succ_lt_succ hk)
      · intro k hk j hj
        rw [after_step]
        exact spared (k + 1) (Nat.succ_lt_succ hk) j (List.mem_cons_of_mem _ hj)

/-- A machine that starts where a listing does, and whose steps but for the last one advance and
spare the code, takes one step for each instruction of the listing and fetches that instruction. -/
theorem run_follows_listing (s : Machine) (count : Nat) (running : s.isHalted = false)
    (straight : ∀ k, k + 1 < (s.memory.disassemble count s.registers.pc).length →
      (s.after k).Advances)
    (spared : ∀ k, k + 1 < (s.memory.disassemble count s.registers.pc).length →
      (s.after k).KeepsCode (s.memory.disassemble count s.registers.pc)) :
    let listing := s.memory.disassemble count s.registers.pc
    let report := (s.run listing.length).1
    report.steps = listing.length ∧ report.entries.map Entry.fetched = listing := by
  intro listing report
  have throughout : ∀ k < listing.length, (s.after k).isHalted = false := by
    intro k hk
    cases k with
    | zero => exact running
    | succ k => exact (straight k hk).running
  have entries : report.entries = s.history listing.length := by
    have run := run_eq_of_running (Nat.le_refl _) throughout (.inr rfl)
    exact congrArg (fun r => r.1.entries) run
  rw [Report.steps, entries, length_history]
  exact ⟨rfl, history_eq_listing rfl (fun _ _ _ _ => rfl) straight spared⟩

/-- Four instructions up to the end of memory, a jump that is not taken and a store among them. The
last is a jump whose operand lies in the first two cells. -/
def straddling : Machine where
  registers := .initial 0xFFF7
  memory := Memory.zero.store 0xFFF7
    [0xCA, 0x00, 0x00, 0x3E, 0x05, 0x32, 0x00, 0x20, 0xC3, 0x00, 0x01]

theorem run_follows_listing_straddling :
    (straddling.run 4).1.steps = 4 ∧
      (straddling.run 4).1.entries.map Entry.fetched =
        straddling.memory.disassemble 10 straddling.registers.pc := by
  have four : (straddling.memory.disassemble 10 straddling.registers.pc).length = 4 := by
    decide +kernel
  have straight : ∀ k < 3, (straddling.after k).Advances := by decide +kernel
  have code : (straddling.memory.disassemble 10 straddling.registers.pc).flatMap Located.cells =
      (List.range 11).map fun j => 0xFFF7 + BitVec.ofNat 16 j := by
    decide +kernel
  have same : ∀ k < 3, ∀ j < 11,
      (straddling.after k).step.2.memory.read (0xFFF7 + BitVec.ofNat 16 j) =
        (straddling.after k).memory.read (0xFFF7 + BitVec.ofNat 16 j) := by
    decide +kernel
  have spared : ∀ k < 3, (straddling.after k).KeepsCode
      (straddling.memory.disassemble 10 straddling.registers.pc) := by
    intro k hk i hi a ha
    have listed := List.mem_flatMap.2 ⟨i, hi, ha⟩
    rw [code] at listed
    obtain ⟨j, hj, rfl⟩ := List.mem_map.1 listed
    exact same k hk j (List.mem_range.1 hj)
  have follows := run_follows_listing straddling 10 rfl
    (fun k hk => straight k (by omega)) fun k hk => spared k (by omega)
  dsimp only at follows
  rwa [four] at follows

end Machine

end Emu8085
