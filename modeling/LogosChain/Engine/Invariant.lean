import LogosChain.Engine.Run

/-!
# The block-tree invariant

In every state of a run: every block reaches the LIB, lengths and slots fit along the links, the
tips are the blocks without a child, the local chain is a stored tip above the LIB, and no `expect`
of the engine can fail but the one on the length of a chain.
-/

namespace Logos.Engine

open Base

variable {Id : Type} [DecidableEq Id]

namespace Cryptarchia

variable {c : Cryptarchia Id}

/-- The block-tree invariant, in the terms of the tree. -/
structure TreeInvariant (c : Cryptarchia Id) : Prop where
  stored : ∀ i b, c.branches.branches.lookup i = some b → b.id = i
  /-- Every block reaches the LIB. -/
  reaches : ∀ b, c.branches.Has b →
    ∃ r, c.branches.Has r ∧ r.id = c.lib ∧ Anc c.branches.par r b
  above : ∀ b, c.branches.Has b → b.id ≠ c.lib →
    ∃ p, c.branches.parent b = some p ∧ b.length = p.length + 1 ∧ p.slot ≤ b.slot
  tips : ∀ i, i ∈ c.branches.tips ↔ i ∈ c.branches.branches ∧ ∀ b, ¬ c.branches.IsChild i b
  tip : c.tip ∈ c.branches.tips ∧ c.branches.branches.lookup c.tip = some c.localChain
  /-- The LIB is an ancestor of the local chain or its tip. -/
  lib : ∃ r, c.branches.Has r ∧ r.id = c.lib ∧ Anc c.branches.par r c.localChain

/-- No `expect` can fail in a call, but the one on the length. -/
structure PanicFree (c : Cryptarchia Id) : Prop where
  receive : ∀ ord id parent slot us f, c.branches.Fresh id →
    c.receiveBlock ord id parent slot us = .error f →
    (∃ e, f = .error e) ∨ f = .panic .heightOverflow
  online : ∀ ord, ∃ r, c.online ord = .ok r
  forkChoice : ∀ ord, ∃ b, c.forkChoice ord = .ok b
  lca : ∀ a b, c.branches.Has a → c.branches.Has b → ∃ l, c.branches.lca a b = some l
  stateLib : ∃ i, c.stateLib = .ok i
  libDepth : ∃ d, c.libDepth = .ok d
  prunableForks : ∀ ord d, ∃ fs, c.prunableForks ord d = .ok fs

theorem Ok.treeInvariant (hc : c.Ok) : c.TreeInvariant where
  stored := hc.tree.key
  reaches b hb := by
    obtain ⟨r, hr, hrid⟩ := hc.tree.exists_lib
    exact ⟨r, hr, hrid, hc.tree.lib_anc hr hrid hb⟩
  above b hb hne := by
    obtain ⟨p, hp, -, -, hlen, hslot⟩ := hc.tree.exists_par hb hne
    grind [Branches.par_of_has]
  tips := hc.tree.tips
  tip := ⟨hc.tip, hc.has⟩
  lib := by
    obtain ⟨r, hr, hrid⟩ := hc.tree.exists_lib
    exact ⟨r, hr, hrid, hc.tree.lib_anc hr hrid hc.has⟩

theorem Ok.panicFree (hc : c.Ok) : c.PanicFree where
  receive _ _ _ _ _ _ hf h := receiveBlock_error hc hf h
  online ord := by
    obtain ⟨r, c', pruned, h, -⟩ := online_spec hc ord
    exact ⟨_, h⟩
  forkChoice ord := ⟨_, forkChoice_eq hc.tree hc.has ord⟩
  lca a b ha hb := by
    obtain ⟨l, hl, -⟩ := hc.tree.lca_spec ha hb
    exact ⟨l, hl⟩
  stateLib := by
    obtain ⟨r, hr, -⟩ := stateLib_spec hc
    exact ⟨_, hr⟩
  libDepth := by
    obtain ⟨r, hr, hrid⟩ := hc.tree.exists_lib
    exact ⟨_, hc.libDepth_eq hr hrid⟩
  prunableForks ord d := by
    by_cases hd : d ≤ c.localChain.length
    · obtain ⟨fs, hfs, -⟩ := prunableForks_eq hc c.lib ord hd
      exact ⟨fs, hfs⟩
    · exact ⟨[], by rw [Cryptarchia.prunableForks, if_neg hd]; rfl⟩

/-- **The block-tree invariant holds in every state of a run**, and no `expect` can fail there. -/
theorem treeInvariant_of_run {id parent : Id} {eras : EraSchedule Config} {state : State}
    {slot length : Nat} {us : List Nat} {evs : List (Event Id)}
    (hrun : Run Step (fromLib id parent eras state slot length us) evs c) :
    c.TreeInvariant ∧ c.PanicFree :=
  have hc := run_ok hrun (fromLib_ok id parent eras state slot length us)
  ⟨hc.treeInvariant, hc.panicFree⟩

/-- A run with forks, a switch to online, a reorg and an orphan. -/
theorem treeInvariant_of_forked_run : ∃ evs c, Run Step (sample 0 .bootstrapping) evs c ∧
    (c.lib, c.tip) = (5, 6) ∧ c.TreeInvariant ∧ c.PanicFree := by
  obtain ⟨evs, c, hrun, hc⟩ := exists_run .ascending (sample 0 .bootstrapping)
    [.block 1 0 1, .block 2 1 2, .block 3 0 3, .block 4 2 4, .online, .block 5 2 5, .block 6 5 6,
      .block 7 9 9] (fun r => (r.2.lib, r.2.tip)) (a := (5, 6)) (by decide)
  exact ⟨evs, c, hrun, hc, treeInvariant_of_run hrun⟩

end Cryptarchia

end Logos.Engine
