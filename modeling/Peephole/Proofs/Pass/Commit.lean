import Peephole.Pass
import Peephole.Proofs.Build.Fault
import Peephole.Proofs.Func.Dead
import Peephole.Proofs.Match

/-!
# One rewrite

What becomes of a settled function when an admitted rule matches an attached instruction. The
variables of the match stand for values that come before the instruction, so that the replacement
can be built there, its value can take the place of the result, and what is dead after that can be
erased: the function is settled again, `commit_eq_ok`. Nothing can stop a rewrite but a replacement
that cannot be built, `commit_ok_iff` and `fault_of_commit`.
-/

namespace Peephole

open Func

variable {f g : Func} {gone : List InstId} {P : Array Pattern} {r : Rule} {i : InstId}
  {b : Bindings}

/-! ### The variables of a match -/

/-- A match binds variables to values that come before the instruction that it matches. -/
theorem Rule.Admitted.available (hr : r.Admitted P) (hf : f.Coherent) (hd : f.Defined)
    (hi : i ∈ f.layout) (h : r.matchInst f i = some b) {k : Nat} {v : ValueId}
    (hk : b k = some v) : f.Available i v := by
  obtain ⟨x, swapped, os, hx, hfits⟩ := r.fits_of_matchInst h
  obtain ⟨o, ho, -, rfl, -⟩ := hfits.exists_occurrence hk
  obtain ⟨op, w, hroot, -⟩ := hr.root
  have hplaced := hfits.placed
  revert hplaced
  cases hs : r.search with
  | var => simp [hs, Pattern.root?] at hroot
  | const => simp [hs, Pattern.root?] at hroot
  | expr slot e guard args =>
    rintro (_ | _ | ⟨definer, inst, -, sources⟩)
    -- the root of the search pattern sits on the instruction itself
    obtain rfl := hf.result_inj (hf.definer?_eq_some.mp definer) hx
    exact sources.available hf hd
      (fun y hy => hd _ hi y (Pattern.mem_operands_of_exchanged inst hy)) o ho

/-- The variables of an admitted replacement are bound by a match. -/
theorem Rule.Admitted.bound_of_matchInst (hr : r.Admitted P) (h : r.matchInst f i = some b)
    {k : Nat} (hk : r.replace.mentions k) : (b k).isSome := by
  obtain ⟨x, swapped, os, -, hfits⟩ := r.fits_of_matchInst h
  exact (hfits.bound k).mpr (.inr (hr.bound k hk))

/-! ### Building the replacement -/

section Build

variable (hr : r.Admitted P) (hreach : Reachable f gone) (hf : f.Settled gone) (hi : i ∈ f.layout)
  (hm : r.matchInst f i = some b)
include hr hreach hf hi hm

/-- Building starts from a sound state. -/
theorem Rule.Admitted.sound (exact : Bool) : Build.Sound P ⟨b, i, exact⟩ gone ⟨f, [], []⟩ where
  reachable := hreach
  settled := hf
  cursor := hi
  bound hk := by
    have hav := hr.available hf.coherent hf.defined hi hm hk
    exact ⟨hf.coherent.known_of_available hav, hav⟩
  shared hmem := by cases hmem

/-- The function with the replacement before the instruction. -/
theorem Rule.Admitted.build_eq_ok {x : ValueId} {events : List Event}
    (h : r.replace.build f b i = .ok (x, g, events)) :
    ∃ d, f.inst? i = some d ∧ Reachable g gone ∧ g.Settled gone ∧ f.Extends g ∧ i ∈ g.layout ∧
      Realized g b i r.replace (some d.width) x := by
  unfold Pattern.build at h
  obtain ⟨d, hd, h⟩ := bind_eq_ok.mp h
  obtain ⟨⟨y, s⟩, hvalue, h⟩ := bind_eq_ok.mp h
  cases h
  obtain ⟨hs, hext, hreal⟩ := Build.realized_of_value r.replace _ _ s x hr.replace
    (hr.sound hreach hf hi hm d.exact) hvalue
  have hd : f.inst? i = some d := by
    cases hi : f.inst? i <;> simp [requireInst, hi] at hd ⊢
    exact hd
  exact ⟨d, hd, hs.reachable, hs.settled, hext, hs.cursor, hreal⟩

/-- A replacement that is not built has no form, no value or no format at its width. -/
theorem Rule.Admitted.fault_of_build {d : Inst} (hd : f.inst? i = some d) {e : Fault}
    (hres : d.result.isSome) (h : r.replace.build f b i = .error e) :
    e.isUnbuildable ∧ r.replace.isBuildable (b.width f) (some d.width) = false := by
  have hsup : supported d.width := by
    obtain ⟨v, hv⟩ := Option.isSome_iff_exists.mp hres
    exact hf.coherent.supported (hf.coherent.produced hd hv)
  unfold Pattern.build at h
  simp only [requireInst, hd, Option.elim_some, ok_bind] at h
  obtain h | ⟨⟨x, s⟩, -, h⟩ := bind_eq_error.mp h
  · exact Build.fault_of_value r.replace _ _ e hr.replace (hr.sound hreach hf hi hm d.exact)
      (fun k hk => hr.bound_of_matchInst hm hk)
      (fun w hw => by cases hw; exact hsup) hr.sized h
  · cases h

/-- A replacement is built exactly if its forms allow it. -/
theorem Rule.Admitted.build_ok_iff {d : Inst} (hd : f.inst? i = some d) (hres : d.result.isSome) :
    (∃ o, r.replace.build f b i = .ok o) ↔
      r.replace.isBuildable (b.width f) (some d.width) := by
  constructor
  · rintro ⟨⟨x, g, events⟩, h⟩
    obtain ⟨d', hd', -, hg, hext, -, hreal⟩ := hr.build_eq_ok hreach hf hi hm h
    obtain rfl : d' = d := Option.some.inj (hd'.symm.trans hd)
    have hw : b.width g = b.width f := (hr.sound hreach hf hi hm d'.exact).width_eq hext
    rw [← hw]
    exact isBuildable_of_realized hg.coherent hreal
  · intro hform
    cases h : r.replace.build f b i with
    | ok o => exact ⟨o, rfl⟩
    | error e =>
      rw [(hr.fault_of_build hreach hf hi hm hd hres h).2] at hform
      cases hform

end Build

/-! ### Erasing twice -/

theorem Func.Erases.append {h : Func} {is js : List InstId} (e : Erases f is g)
    (e' : Erases g js h) : Erases f (is ++ js) h := by
  induction e with
  | nil => exact e'
  | cons attached dead rest ih => exact .cons attached dead (ih e')

/-- Erasing a dead instruction keeps a function reachable and settled. -/
theorem Func.Settled.eraseDead (hreach : Reachable f gone) (hf : f.Settled gone) {n : Nat}
    (h : f.eraseDead i = ⟨g, .ok n⟩) :
    ∃ is, Erases f is g ∧ Reachable g (f.detachedIn g ++ gone) ∧
      g.Settled (f.detachedIn g ++ gone) := by
  obtain ⟨is, -, herase⟩ := eraseDead_eq_ok h
  have hset := hf.erases herase
  have hcongr (j : InstId) : j ∈ f.detachedIn g ++ gone ↔ j ∈ is ++ gone := by
    rw [List.mem_append, List.mem_append, mem_detachedIn herase]
  exact ⟨is, herase, hreach.edit (.eraseDead h), hset.coherent, hset.mirrored.congr hcongr,
    fun j hj => (hset.tidy j hj).trans (not_congr (hcongr j).symm), hset.defined⟩

/-! ### Committing -/

namespace Pass

/-- What a rewrite does, step by step: it builds the replacement, moves the uses of the result to
it, erases the instruction, and then what defines the replacement, if anything does. -/
theorem commit_cases {result : ValueId} {events : List Event}
    (h : commit f i result r b = .ok (g, events)) :
    ∃ x e n e', r.replace.build f b i = .ok (x, e, events) ∧
      (e.replaceAllUses result x).eraseDead i = ⟨e', .ok n⟩ ∧
      (e'.definer? x = none ∧ g = e' ∨
        ∃ j m, e'.definer? x = some j ∧ e'.eraseDead j = ⟨g, .ok m⟩) := by
  unfold commit at h
  obtain ⟨⟨x, e, events'⟩, hbuild, h⟩ := bind_eq_ok.mp h
  obtain ⟨⟨n, e'⟩, herase, h⟩ := bind_eq_ok.mp h
  dsimp only at h
  split at h
  · next j hj =>
    obtain ⟨⟨m, e''⟩, herase', h⟩ := bind_eq_ok.mp h
    cases h
    exact ⟨x, e, n, e', hbuild, Edited.toExcept_eq_ok.mp herase,
      .inr ⟨j, m, hj, Edited.toExcept_eq_ok.mp herase'⟩⟩
  · next hnone =>
    cases h
    exact ⟨x, e, n, g, hbuild, Edited.toExcept_eq_ok.mp herase, .inl ⟨hnone, rfl⟩⟩

section Commit

variable {result : ValueId} (hr : r.Admitted P) (hreach : Reachable f gone) (hf : f.Settled gone)
  (hi : i ∈ f.layout) (hres : f.result? i = some result) (hm : r.matchInst f i = some b)
include hr hreach hf hi hres hm

/-- Once the replacement is built, its value can take the place of the result. -/
theorem settled_replaceAllUses {x : ValueId} {events : List Event}
    (h : r.replace.build f b i = .ok (x, g, events)) :
    result ≠ x ∧ Reachable (g.replaceAllUses result x) gone ∧
      (g.replaceAllUses result x).Settled gone := by
  obtain ⟨d, -, hreach', hset, hext, -, hreal⟩ := hr.build_eq_ok hreach hf hi hm h
  have hres' := hext.result? hres
  have hknown := hreal.known hset.coherent
  have hold : (g.value? result).isSome := by
    obtain ⟨d', hd', hv⟩ := Option.bind_eq_some_iff.mp hres'
    rw [hset.coherent.produced hd' hv]
    rfl
  exact ⟨(hset.coherent.ne_of_available hres' hreal.available).symm,
    hreach'.edit (.replaceAllUses hold hknown),
    hset.replaceAllUses hres' hknown hreal.available⟩

/-- A rewrite builds the replacement, moves the uses of the result to it, and erases what is dead.
-/
theorem commit_eq_ok {events : List Event} (h : commit f i result r b = .ok (g, events)) :
    ∃ x e is gone', r.replace.build f b i = .ok (x, e, events) ∧
      Erases (e.replaceAllUses result x) is g ∧ Reachable g gone' ∧ g.Settled gone' := by
  obtain ⟨x, e, n, e', hbuild, herase, hrest⟩ := commit_cases h
  obtain ⟨-, hreach', hset'⟩ := settled_replaceAllUses hr hreach hf hi hres hm hbuild
  obtain ⟨is, his, hreach'', hset''⟩ := hset'.eraseDead hreach' herase
  -- the value itself may be dead, so that its definer is erased after the instruction
  obtain ⟨-, rfl⟩ | ⟨j, m, -, herase'⟩ := hrest
  · exact ⟨x, e, is, _, hbuild, his, hreach'', hset''⟩
  · obtain ⟨js, hjs, hreach3, hset3⟩ := hset''.eraseDead hreach'' herase'
    exact ⟨x, e, is ++ js, _, hbuild, his.append hjs, hreach3, hset3⟩

/-- An instruction that is replaced does not stay. -/
theorem not_isAttached_of_commit {events : List Event}
    (h : commit f i result r b = .ok (g, events)) : ¬ g.isAttached i := by
  obtain ⟨x, e, n, e', hbuild, herase, hrest⟩ := commit_cases h
  obtain ⟨-, -, -, hset, hext, hi', -⟩ := hr.build_eq_ok hreach hf hi hm hbuild
  obtain ⟨hne, -⟩ := settled_replaceAllUses hr hreach hf hi hres hm hbuild
  -- nothing uses the result any more, and it is all that the instruction is there for
  have hdead : (e.replaceAllUses result x).isDead i :=
    hset.coherent.isDead_replaceAllUses hne (hext.result? hres)
  have hattached : (e.replaceAllUses result x).isAttached i := by
    rw [isAttached_replaceAllUses]
    exact hset.coherent.mem_layout.mp hi'
  have hout := not_isAttached_of_eraseDead hattached hdead herase
  obtain ⟨-, rfl⟩ | ⟨j, m, -, herase'⟩ := hrest
  · exact hout
  · obtain ⟨js, -, hjs⟩ := eraseDead_eq_ok herase'
    rw [hjs.isAttached_iff]
    exact fun h => hout h.1

/-- A rewrite succeeds when its replacement is built. -/
theorem commit_ok_of_build {o : ValueId × Func × List Event}
    (hbuild : r.replace.build f b i = .ok o) : ∃ c, commit f i result r b = .ok c := by
  obtain ⟨x, e, events⟩ := o
  obtain ⟨-, -, -, -, -, hi', -⟩ := hr.build_eq_ok hreach hf hi hm hbuild
  obtain ⟨-, -, hset'⟩ := settled_replaceAllUses hr hreach hf hi hres hm hbuild
  have hexists : ((e.replaceAllUses result x).inst? i).isSome := by
    refine hset'.coherent.exists_of_mem_layout ?_
    rwa [layout_replaceAllUses]
  obtain ⟨n, e', herase⟩ := hset'.coherent.eraseDead_ok hexists
  unfold commit
  rw [hbuild, ok_bind]
  dsimp only
  rw [Edited.toExcept_eq_ok.mpr herase, ok_bind]
  dsimp only
  split
  · next j hj =>
    obtain ⟨is, -, his⟩ := eraseDead_eq_ok herase
    have hcoh := hset'.coherent.erases his
    have hj' : (e'.inst? j).isSome := by
      obtain ⟨d, hd, -⟩ := Option.bind_eq_some_iff.mp (hcoh.definer?_eq_some.mp hj)
      rw [hd]
      rfl
    obtain ⟨m, e'', herase'⟩ := hcoh.eraseDead_ok hj'
    rw [Edited.toExcept_eq_ok.mpr herase']
    exact ⟨_, rfl⟩
  · exact ⟨_, rfl⟩

/-- A rewrite succeeds exactly if its replacement can be built. -/
theorem commit_ok_iff {d : Inst} (hd : f.inst? i = some d) :
    (∃ c, commit f i result r b = .ok c) ↔
      r.replace.isBuildable (b.width f) (some d.width) := by
  have hsome : d.result.isSome := by
    rw [result?, hd, Option.bind_some] at hres
    rw [hres]
    rfl
  rw [← hr.build_ok_iff hreach hf hi hm hd hsome]
  constructor
  · rintro ⟨⟨g, events⟩, h⟩
    obtain ⟨x, e, _, _, hbuild, -⟩ := commit_eq_ok hr hreach hf hi hres hm h
    exact ⟨_, hbuild⟩
  · rintro ⟨o, hbuild⟩
    exact commit_ok_of_build hr hreach hf hi hres hm hbuild

/-- What stops a rewrite is a replacement that cannot be built. -/
theorem fault_of_commit {e : Fault} (h : commit f i result r b = .error e) : e.isUnbuildable := by
  obtain ⟨d, hd, hv⟩ := Option.bind_eq_some_iff.mp hres
  cases hbuild : r.replace.build f b i with
  | ok o =>
    obtain ⟨c, hc⟩ := commit_ok_of_build hr hreach hf hi hres hm hbuild
    rw [hc] at h
    cases h
  | error e' =>
    have : commit f i result r b = .error e' := by
      unfold commit
      rw [hbuild]
      rfl
    rw [this] at h
    cases h
    exact (hr.fault_of_build hreach hf hi hm hd (by rw [hv]; rfl) hbuild).1

end Commit

end Pass

end Peephole
