import Mathlib.Data.List.Infix

/-!
# Decoders

A decoder reads from the front of a list of symbols and leaves the rest, or fails. It decodes
the codes `enc a` of the values in `valid` (`Decodes`) when it reads each of them back and
succeeds on nothing else, under a condition on what it leaves : some decoders are right only
when something follows.

Decoders are put together by `Decodes.bind`, `Decodes.prod` and `Decodes.map`. One that is right
whatever follows rejects every strict beginning of a code (`Decodes.reject`).
-/

namespace Corgi

variable {σ ε α β : Type}

/-- As long as the rest is one of `follow`, `d` reads exactly the codes of the values in
`valid`. -/
structure Decodes (follow : List σ → Prop) (d : StateT (List σ) (Except ε) α) (enc : α → List σ)
    (valid : α → Prop) : Prop where
  decode : ∀ {a rest}, valid a → follow rest → d.run (enc a ++ rest) = .ok (a, rest)
  encode : ∀ {data a rest}, d.run data = .ok (a, rest) → follow rest →
    valid a ∧ data = enc a ++ rest

theorem exists_of_bind_eq_ok {x : Except ε α} {f : α → Except ε β} {b : β}
    (h : x >>= f = .ok b) : ∃ a, x = .ok a ∧ f a = .ok b := by
  cases x with
  | error e => cases h
  | ok a => exact ⟨a, rfl, h⟩

/-- What two decoders in a row read. -/
theorem run_bind_eq_ok {d : StateT (List σ) (Except ε) α} {f : α → StateT (List σ) (Except ε) β}
    {data rest : List σ} {b : β} : (d >>= f).run data = .ok (b, rest) ↔
      ∃ a mid, d.run data = .ok (a, mid) ∧ (f a).run mid = .ok (b, rest) := by
  rw [StateT.run_bind]
  cases d.run data with
  | error e => exact ⟨nofun, fun ⟨_, _, h, _⟩ => nomatch h⟩
  | ok r =>
    obtain ⟨a, mid⟩ := r
    constructor
    · exact fun h => ⟨a, mid, rfl, h⟩
    · rintro ⟨_, _, h, hf⟩
      cases h
      exact hf

namespace Decodes

variable {follow follow' : List σ → Prop} {d : StateT (List σ) (Except ε) α}
  {d' : StateT (List σ) (Except ε) β} {enc : α → List σ} {enc' : β → List σ} {valid : α → Prop}
  {valid' : β → Prop}

theorem congr {valid₁ : α → Prop} (h : Decodes follow d enc valid)
    (hvalid : ∀ a, valid₁ a ↔ valid a) : Decodes follow d enc valid₁ :=
  ⟨fun ha hrest => h.decode ((hvalid _).mp ha) hrest,
    fun hrun hrest => (h.encode hrun hrest).imp_left (hvalid _).mpr⟩

/-- The second decoder may depend on what the first one read, which is a part of the result. -/
theorem bind {f : α → StateT (List σ) (Except ε) β} {g : β → α} {v : β → Prop}
    (h : Decodes follow d enc valid)
    (h' : ∀ a, Decodes follow' (f a) enc' fun b => g b = a ∧ v b)
    (hfollow : ∀ {b rest}, v b → follow' rest → follow (enc' b ++ rest)) :
    Decodes follow' (d >>= f) (fun b => enc (g b) ++ enc' b)
      fun b => valid (g b) ∧ v b := by
  constructor
  · rintro b rest ⟨hv, hv'⟩ hrest
    rw [List.append_assoc, run_bind_eq_ok]
    exact ⟨g b, enc' b ++ rest, h.decode hv (hfollow hv' hrest),
      (h' _).decode ⟨rfl, hv'⟩ hrest⟩
  · intro data b rest hrun hrest
    obtain ⟨a, mid, hd, hf⟩ := run_bind_eq_ok.mp hrun
    obtain ⟨⟨rfl, hv'⟩, rfl⟩ := (h' a).encode hf hrest
    obtain ⟨hv, rfl⟩ := h.encode hd (hfollow hv' hrest)
    exact ⟨⟨hv, hv'⟩, (List.append_assoc _ _ _).symm⟩

/-- `f` puts the value read into a form from which `g` takes it back. -/
theorem map {f : α → β} {g : β → α} (h : Decodes follow d enc valid)
    (hgf : ∀ a, valid a → g (f a) = a) :
    Decodes follow (f <$> d) (fun b => enc (g b)) fun b => f (g b) = b ∧ valid (g b) := by
  rw [map_eq_pure_bind]
  constructor
  · rintro b rest ⟨hb, hv⟩ hrest
    rw [run_bind_eq_ok]
    refine ⟨g b, rest, h.decode hv hrest, ?_⟩
    rw [hb]
    rfl
  · intro data b rest hrun hrest
    obtain ⟨a, mid, hd, hf⟩ := run_bind_eq_ok.mp hrun
    cases hf
    obtain ⟨hv, rfl⟩ := h.encode hd hrest
    rw [hgf a hv]
    exact ⟨⟨rfl, hv⟩, rfl⟩

/-- Two values, one after the other. -/
theorem prod (h : Decodes follow d enc valid) (h' : Decodes follow' d' enc' valid')
    (hfollow : ∀ {b rest}, valid' b → follow' rest → follow (enc' b ++ rest)) :
    Decodes follow' (d >>= fun a => (fun b => (a, b)) <$> d') (fun p => enc p.1 ++ enc' p.2)
      fun p => valid p.1 ∧ valid' p.2 := by
  refine h.bind (fun a => ?_) hfollow
  refine (h'.map (f := fun b => (a, b)) (g := Prod.snd) fun _ _ => rfl).congr fun p => ?_
  refine and_congr_left fun _ => ⟨fun hp => ?_, fun hp => ?_⟩
  · rw [← hp]
  · exact congrArg Prod.fst hp.symm

/-- A strict beginning of a code is rejected. -/
theorem reject (h : Decodes (fun _ => True) d enc valid) {a : α} (ha : valid a) {data : List σ}
    (hle : data <+: enc a) (hne : data ≠ enc a) : ∃ e, d.run data = .error e := by
  cases hrun : d.run data with
  | error e => exact ⟨e, rfl⟩
  | ok r =>
    obtain ⟨b, rest⟩ := r
    obtain ⟨more, hmore⟩ := hle
    obtain ⟨hb, rfl⟩ := h.encode hrun trivial
    -- the code of `b` followed by more is read as `b`, and it is the code of `a`
    have hread := @h.decode b (rest ++ more) hb trivial
    rw [← List.append_assoc, hmore, ← List.append_nil (enc a), h.decode ha trivial] at hread
    obtain ⟨rfl, hnil⟩ := Prod.mk.inj (Except.ok.inj hread)
    rw [(List.append_eq_nil_iff.mp hnil.symm).1, List.append_nil] at hne
    exact absurd rfl hne

end Decodes

end Corgi
