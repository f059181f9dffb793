import MicrokernelBenchmark.TransitionSystem

/-!
# Components of a larger system

A component has a state of its own within the state of a system, as soon as it is
there, and every label of the system moves it by its share. Along a run of the
system the shares of the labels are a run of the component. The other way round, a
run of the component up to a goal is one of the system as long as the system can
make each of its steps.
-/
namespace MicrokernelBenchmark.TransitionSystem.System
variable {α β σ τ : Type*} {M : System α σ} {N : System β τ} {f : α → Option β}
  {view : σ → Option τ}

/-- The component appears in its first state, at the latest. -/
structure Component (M : System α σ) (N : System β τ) (f : α → Option β)
    (view : σ → Option τ) : Prop where
  init : ∀ u, view M.init = some u → u = N.init
  appears : ∀ a s t, M.Reachable s → M.tick a s = some t → view s = none →
    f a = none ∧ ∀ u, view t = some u → u = N.init
  moves : ∀ a s t u, M.Reachable s → M.tick a s = some t → view s = some u →
    ∃ v, N.share (f a) u = some v ∧ view t = some v

theorem Run.unique {as : List α} {s t u : σ} (h : M.Run as s t) (k : M.Run as s u) : t = u :=
  Option.some.inj (h.symm.trans k)

theorem Run.share_snoc {as : List α} {a : α} {u v w : τ} (h : N.Run (as.filterMap f) u v)
    (ha : N.share (f a) v = some w) : N.Run ((as ++ [a]).filterMap f) u w := by
  rw [List.filterMap_append]
  cases hf : f a with
  | none =>
      rw [hf] at ha
      obtain rfl := Option.some.inj ha
      simpa [hf] using h
  | some b =>
      rw [hf] at ha
      simpa [hf] using run_snoc.mpr ⟨v, h, ha⟩

theorem Component.run (C : Component M N f view) {as : List α} {s : σ}
    (h : M.Run as M.init s) : (view s = none → as.filterMap f = []) ∧
      ∀ u, view s = some u → N.Run (as.filterMap f) N.init u := by
  have hall : (view s = none → as.filterMap f = []) ∧
      (∀ u, view s = some u → N.Run (as.filterMap f) N.init u) ∧ M.Reachable s := by
    apply h.history (P := fun as s => (view s = none → as.filterMap f = []) ∧
      (∀ u, view s = some u → N.Run (as.filterMap f) N.init u) ∧ M.Reachable s)
    · exact ⟨fun _ => rfl, fun u hu => run_nil.mpr (C.init u hu).symm, [], run_nil.mpr rfl⟩
    rintro as a s t ⟨hnone, hsome, bs, hbs⟩ ht
    have hreach : M.Reachable t := ⟨bs ++ [a], run_snoc.mpr ⟨s, hbs, ht⟩⟩
    cases hs : view s with
    | none =>
        obtain ⟨hf, hinit⟩ := C.appears a s t ⟨bs, hbs⟩ ht hs
        have hnil : (as ++ [a]).filterMap f = [] := by simp [hnone hs, hf]
        refine ⟨fun _ => hnil, fun u hu => ?_, hreach⟩
        rw [hnil, hinit u hu]
        exact run_nil.mpr rfl
    | some u =>
        obtain ⟨v, hv, ht⟩ := C.moves a s t u ⟨bs, hbs⟩ ht hs
        refine ⟨fun h => by simp [ht] at h, fun w hw => ?_, hreach⟩
        obtain rfl := Option.some.inj (ht.symm.trans hw)
        exact (hsome u hs).share_snoc hv
  exact ⟨hall.1, hall.2.1⟩

/-- A later part of a run moves the component from where it was. -/
theorem Component.run_from (C : Component M N f view) {as bs : List α} {s t : σ} {u v : τ}
    (h : M.Run as M.init s) (k : M.Run bs s t) (hu : view s = some u) (hv : view t = some v) :
    N.Run (bs.filterMap f) u v := by
  have hrun := (C.run (h.append k)).2 v hv
  rw [List.filterMap_append] at hrun
  obtain ⟨w, hw, hrun⟩ := run_append.mp hrun
  obtain rfl := hw.unique ((C.run h).2 u hu)
  exact hrun

/-- The system follows its component up to the goal. -/
theorem exists_run_of_component {I : σ → Prop} (view : σ → Option τ) (goal : τ → Prop)
    (embed : β → α) (ok : β → Prop)
    (step : ∀ b s u v, ok b → I s → view s = some u → ¬ goal u → N.tick b u = some v →
      ∃ t, M.tick (embed b) s = some t ∧ I t ∧ view t = some v)
    {bs : List β} {s : σ} {u v : τ} (h : N.Run bs u v) (hok : ∀ b ∈ bs, ok b) (hs : I s)
    (hu : view s = some u) (hv : goal v) :
    ∃ (cs : List β) (t : σ) (w : τ), (∀ c ∈ cs, ok c) ∧ M.Run (cs.map embed) s t ∧ I t ∧
      view t = some w ∧ goal w := by
  induction bs generalizing s u with
  | nil =>
      obtain rfl := run_nil.mp h
      exact ⟨[], s, u, by simp, run_nil.mpr rfl, hs, hu, hv⟩
  | cons b bs ih =>
      by_cases hgoal : goal u
      · exact ⟨[], s, u, by simp, run_nil.mpr rfl, hs, hu, hgoal⟩
      obtain ⟨hb, hbs⟩ := List.forall_mem_cons.mp hok
      obtain ⟨x, hx, h⟩ := run_cons.mp h
      obtain ⟨t, ht, hI, hview⟩ := step b s u x hb hs hu hgoal hx
      obtain ⟨cs, t', w, hcs, hrun, hI, hw, hgoal⟩ := ih h hbs hI hview
      exact ⟨b :: cs, t', w, List.forall_mem_cons.mpr ⟨hb, hcs⟩,
        run_cons.mpr ⟨t, ht, hrun⟩, hI, hw, hgoal⟩

end MicrokernelBenchmark.TransitionSystem.System
