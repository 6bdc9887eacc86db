import ValueHashing.Reporting

/-!
# Operations are quiet

After a start nothing is reported, although every operation of `Reporting` may report: the
operations have the plain results and no trace (`Reporting.Quiet`), and the starts have the results
and the traces that `StreamingHash` gives them. The absorber of SHA-2 is quiet part by part
(`Absorber.absorbLogged_eq` and the lemmas after it), the keyed construction over a quiet algorithm
is quiet (`Hmac.quiet_reporting`), and so every scheme is (`Scheme.quiet_reporting`).

Whatever is built on a quiet algorithm is quiet as well: feeding a value of any shape, unordered
collections included (`Reporting.Quiet.feed`), a digest, and the comparison of a tag.
-/

namespace ValueHashing

/-- A loop reports nothing if no pass does. -/
theorem Logged.foldlM_eq_pure {α β : Type} {pass : β → α → Logged β} {f : β → α → β}
    (h : ∀ b x, pass b x = pure (f b x)) (b : β) (xs : List α) :
    xs.foldlM pass b = pure (xs.foldl f b) := by
  rw [funext fun b => funext (h b), List.foldlM_pure]

/-! ## Absorbers -/

namespace Absorber

variable {W : Type} {C : Compression W}

theorem absorbBlocksLogged_eq (a : Absorber C) (data : Bytes) :
    a.absorbBlocksLogged data = pure (a.absorbBlocks data) := by
  simp only [absorbBlocksLogged, Compression.compressLogged, List.foldlM_pure, pure_bind,
    absorbBlocks]
  split <;> rfl

theorem absorbLogged_eq (a : Absorber C) (data : Bytes) :
    a.absorbLogged data = pure (a.absorb data) := by
  unfold absorbLogged absorb
  simp only [absorbBlocksLogged_eq, Compression.compressLogged, pure_bind]
  split
  · rfl
  · split
    · rfl
    · split <;> rfl

theorem closeLogged_eq (a : Absorber C) : a.closeLogged = pure a.close := by
  simp only [closeLogged, absorbLogged_eq, pure_bind, close]

theorem absorbKeyLogged_eq (a : Absorber C) (key : Bytes) :
    a.absorbKeyLogged key = pure (a.absorbKey key) := by
  unfold absorbKeyLogged absorbKey
  simp only [absorbLogged_eq, closeLogged_eq, pure_bind]
  split <;> rfl

theorem closeIntoLogged_eq [Word W] (a : Absorber C) (buffer : Bytes) :
    a.closeIntoLogged buffer = pure (a.closeInto buffer) := by
  simp only [closeIntoLogged, closeLogged_eq, pure_bind, closeInto]

end Absorber

/-! ## Algorithms -/

/-- Nothing but the starts reports, and everything has its plain result. -/
structure Reporting.Quiet {H : StreamingHash} (R : Reporting H) : Prop where
  start : ∀ how, R.start how = H.start how
  absorb : ∀ h data, R.absorb h data = pure (H.absorb h data)
  finish : ∀ h, R.finish h = pure (H.finish h)

theorem Reporting.quiet_plain (H : StreamingHash) : (plain H).Quiet :=
  ⟨fun _ => rfl, fun _ _ => rfl, fun _ => rfl⟩

namespace Sha2

theorem Parameters.quiet_reporting {W : Type} [Word W] (p : Parameters W) :
    p.reporting.Quiet where
  start := by
    have hkeyed (key : Bytes) : p.startKeyedLogged key = p.keyedStart key := by
      simp only [startKeyedLogged, Absorber.absorbKeyLogged_eq, keyedStart]
    intro how
    cases how with
    | fresh | default => rfl
    | keyed key => exact hkeyed key
    | seeded seed =>
        have hseed := hkeyed (StreamingHash.seedKey seed)
        exact congrArg (fun other => if seed = 0 then _ else other) hseed
  absorb := Absorber.absorbLogged_eq
  finish a := a.closeIntoLogged_eq (Bytes.zeros p.digestSize)

theorem Variant.quiet_reporting (v : Variant) : v.reporting.Quiet := by
  cases v with
  | sha224 | sha256 | sha384 | sha512 | sha512_224 | sha512_256 =>
      exact Parameters.quiet_reporting _

end Sha2

namespace Reporting.Quiet

variable {H : StreamingHash} {R : Reporting H} (hR : R.Quiet)

include hR

theorem absorbAll (h : H.State) (parts : List Bytes) :
    R.absorbAll h parts = pure (H.absorbAll h parts) :=
  Logged.foldlM_eq_pure hR.absorb h parts

theorem digest (data : Bytes) : R.digest data = H.digest data := by
  simp only [Reporting.digest, hR.start, hR.absorb, hR.finish, pure_bind]
  rfl

theorem digestAll (parts : List Bytes) : R.digestAll parts = H.digestAll parts := by
  simp only [Reporting.digestAll, hR.start, hR.absorbAll, hR.finish, pure_bind]
  rfl

end Reporting.Quiet

namespace Hmac

variable {H : StreamingHash} {R : Reporting H} (hR : R.Quiet)

include hR

theorem keyBlockLogged_eq (key : Bytes) : keyBlockLogged R key = keyBlock H key := by
  simp only [keyBlockLogged, hR.digest, keyBlock]

theorem startLogged_eq (key : Bytes) : startLogged R key = start H key := by
  simp only [startLogged, keyBlockLogged_eq hR, hR.start, hR.absorb, pure_bind, start]
  rfl

theorem finishLogged_eq (s : Hmac H.State) : finishLogged R s = pure (finish H s) := by
  simp only [finishLogged, hR.finish, hR.absorb, pure_bind, finish]

/-- The two instances run the operations of the algorithm that is keyed. -/
theorem quiet_reporting : (reporting R).Quiet where
  start how := by
    cases how with
    | fresh | default => exact startLogged_eq hR []
    | keyed key => exact startLogged_eq hR key
    | seeded seed =>
        simp only [reporting, startLogged_eq hR]
        rfl
  absorb s data := by
    simp only [reporting, hR.absorb, pure_bind]
    rfl
  finish := finishLogged_eq hR

theorem tagLogged_eq (key data : Bytes) : tagLogged R key data = tag H key data := by
  have hquiet := quiet_reporting hR
  have hrest (s : (of H).State) : (reporting R).absorb s data >>= (reporting R).finish =
      pure ((of H).finish ((of H).absorb s data)) := by
    rw [hquiet.absorb, pure_bind, hquiet.finish]
  rw [tagLogged, startLogged_eq hR]
  exact bind_congr hrest

theorem checkLogged_eq (s : Hmac H.State) (expected : Bytes) :
    checkLogged R s expected = pure (check H s expected) := by
  simp only [checkLogged, finishLogged_eq hR, pure_bind, check]

end Hmac

/-- Every scheme is quiet, however deep keyed constructions are nested. -/
theorem Scheme.quiet_reporting (scheme : Scheme) : scheme.reporting.Quiet := by
  induction scheme with
  | sha2 v => exact v.quiet_reporting
  | fnv | recorder => exact Reporting.quiet_plain _
  | hmac inner ih => exact Hmac.quiet_reporting ih

/-! ## Values -/

namespace Reporting.Quiet

variable {H : StreamingHash} {R : Reporting H} (hR : R.Quiet) (L : Layout)

include hR

/-- A run through the staging buffer is as many calls as there are pieces. -/
theorem feedStaged (w : Width) (h : H.State) (xs : List (BitVec w.bits)) :
    R.feedStaged L w h xs = pure (ValueHashing.feedStaged H L w h xs) := by
  have hpiece (s : H.State × Bytes) (piece : List (BitVec w.bits)) :
      R.feedPiece L w s piece = pure (ValueHashing.feedPiece H L w s piece) := by
    simp only [Reporting.feedPiece, hR.absorb, pure_bind]
    rfl
  simp only [Reporting.feedStaged, Logged.foldlM_eq_pure hpiece, pure_bind]
  rfl

theorem feedRun (s : Shape) {oneR : H.State → s.Value → Logged H.State}
    {one : H.State → s.Value → H.State} (hone : ∀ h x, oneR h x = pure (one h x)) (h : H.State)
    (xs : List s.Value) :
    R.feedRun L s oneR h xs = pure (ValueHashing.feedRun H L s one h xs) := by
  cases s with
  | int signed w =>
      cases signed with
      | true => exact hR.feedStaged L w h xs
      | false =>
          cases w with
          | w8 => exact hR.absorb h _
          | w16 | w32 | w64 | w128 => exact hR.feedStaged L _ h xs
  | _ => exact Logged.foldlM_eq_pure hone h xs

/-- The copies that elements go to are finished, and report as little as the state itself. -/
theorem feedUnordered {α : Type} {oneR : H.State → α → Logged H.State}
    {one : H.State → α → H.State} (hone : ∀ h x, oneR h x = pure (one h x)) (h : H.State)
    (xs : List α) :
    R.feedUnordered L oneR h xs = pure (ValueHashing.feedUnordered H L one h xs) := by
  have hshare (h : H.State) : R.contribution h = pure (ValueHashing.contribution H h) := by
    simp only [Reporting.contribution, hR.finish, pure_bind]
    rfl
  simp only [Reporting.feedUnordered, hone, hshare, pure_bind, List.foldlM_pure, hR.absorb]
  exact hR.absorb _ _

/-- Induction on the shape. -/
theorem feed (s : Shape) (h : H.State) (x : s.Value) :
    R.feed L s h x = pure (ValueHashing.feed H L s h x) := by
  induction s generalizing h with
  | int | machineInt | bool | char | float | length => exact hR.absorb h _
  | unit | hidden => rfl
  | text =>
      simp only [Reporting.feed, hR.absorb, pure_bind]
      exact hR.absorb _ _
  | pair first second ihFirst ihSecond =>
      simp only [Reporting.feed, ihFirst, ihSecond, pure_bind]
      rfl
  | record fields ih => exact ih h x
  | option present ih =>
      cases x with
      | none => exact hR.absorb h _
      | some x =>
          have hflag : R.feedFlag h true = pure (ValueHashing.feedFlag H h true) := hR.absorb h _
          simp only [Reporting.feed, hflag, ih, pure_bind]
          rfl
  | indirect kind target ih => exact ih h x
  | array count element ih => exact hR.feedRun L element ih h x.toList
  | collection kind element ih =>
      have hcounted (h : H.State) (counted : Bool) :
          (if counted then R.feedLength L h x.length else return h) =
            (pure (if counted then ValueHashing.feedLength H L h x.length else h) :
              Logged H.State) := by
        cases counted with
        | true => exact hR.absorb h _
        | false => rfl
      rw [Reporting.feed, ValueHashing.feed]
      cases kind.discipline with
      | contiguous counted =>
          simp only [hR.feedRun L element ih, pure_bind]
          exact hcounted _ counted
      | successive counted =>
          simp only [Logged.foldlM_eq_pure ih, pure_bind]
          exact hcounted _ counted
      | unordered => exact hR.feedUnordered L ih h x

end Reporting.Quiet

end ValueHashing
