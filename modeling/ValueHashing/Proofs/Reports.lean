import ValueHashing.Proofs.Reporting

/-!
# What is reported of keys

Building an instance reports at most one event, which its scheme and its key settle
(`Scheme.keyReport`): the key of a plain variant if there is one, and a key that is longer than a
block under the keyed construction. The two instances inside of a keyed one, and the digest of a
long key, are built without a key, so they report nothing at any depth of nesting
(`Scheme.trace_fresh`).

What is done to an instance afterwards reports nothing, as all operations are quiet, so a session
reports what its starts do (`Session.runLogged_eq`).
-/

namespace ValueHashing

/-- The name of a variant of SHA-2. -/
def Sha2.Variant.name : Variant → String
  | sha224 => "Sha224"
  | sha256 => "Sha256"
  | sha384 => "Sha384"
  | sha512 => "Sha512"
  | sha512_224 => "Sha512_224"
  | sha512_256 => "Sha512_256"

/-- What is reported when an instance of a scheme is built from a key. -/
def Scheme.keyReport : Scheme → Bytes → Option TraceEvent
  | sha2 v, key => if key = [] then none else some (.keyedStart v.name key.length)
  | hmac inner, key =>
      if key.length ≤ inner.algorithm.blockSize then none
      else some (.longKey key.length inner.algorithm.blockSize)
  | fnv _, _ | recorder, _ => none

/-- What is reported when an instance of a scheme is started. A seed other than zero is the key of
its eight bytes, least significant first. -/
def Scheme.startReport (scheme : Scheme) : Start → Option TraceEvent
  | .fresh | .default => none
  | .seeded seed => if seed = 0 then none else scheme.keyReport (Bytes.littleEndian 8 seed.toNat)
  | .keyed key => scheme.keyReport key

/-! ## Starts -/

theorem Sha2.Parameters.trace_keyedStart {W : Type} (p : Parameters W) (key : Bytes) :
    (p.keyedStart key).trace =
      if key = [] then [] else [.keyedStart p.name key.length] := by
  by_cases hkey : key = []
  · rw [hkey]
    rfl
  · have hne : ¬ key.isEmpty := by simpa using hkey
    rw [keyedStart, if_neg hne, if_neg hkey]
    rfl

theorem Sha2.Variant.trace_keyed (v : Variant) (key : Bytes) :
    (v.algorithm.keyed key).trace =
      if key = [] then [] else [.keyedStart v.name key.length] := by
  cases v with
  | sha224 | sha256 | sha384 | sha512 | sha512_224 | sha512_256 =>
      exact Parameters.trace_keyedStart _ key

/-- A digest reports what a fresh start does. -/
theorem StreamingHash.trace_digest (H : StreamingHash) (data : Bytes) :
    (H.digest data).trace = H.fresh.trace := by
  simp [digest]

theorem StreamingHash.trace_digestAll (H : StreamingHash) (parts : List Bytes) :
    (H.digestAll parts).trace = H.fresh.trace := by
  simp [digestAll]

namespace Hmac

variable {H : StreamingHash}

/-- Only the replacement of a long key is reported, if a fresh start reports nothing. -/
theorem trace_keyBlock (hfresh : H.fresh.trace = []) (key : Bytes) :
    (keyBlock H key).trace =
      if key.length ≤ H.blockSize then [] else [.longKey key.length H.blockSize] := by
  by_cases hfits : key.length ≤ H.blockSize
  · simp only [keyBlock, if_pos hfits, if_neg (Nat.not_lt_of_le hfits), Logged.trace_pure]
  · have hlong : key.length > H.blockSize := Nat.lt_of_not_le hfits
    simp only [keyBlock, if_neg hfits, if_pos hlong, Logged.trace_bind, Logged.trace_report,
      Logged.trace_pure, H.trace_digest, hfresh, List.append_nil]

/-- The two instances add nothing to what is reported of the key. -/
theorem trace_start (hfresh : H.fresh.trace = []) (key : Bytes) :
    (start H key).trace = (keyBlock H key).trace := by
  simp only [start, Logged.trace_bind, Logged.trace_pure, hfresh, List.append_nil]

theorem trace_tag (key data : Bytes) : (tag H key data).trace = (start H key).trace := by
  simp only [tag, Logged.trace_bind, Logged.trace_pure, List.append_nil]

end Hmac

namespace Scheme

/-- Without a key nothing is reported, however deep keyed constructions are nested. -/
theorem trace_fresh (scheme : Scheme) : scheme.algorithm.fresh.trace = [] := by
  induction scheme with
  | sha2 v => cases v <;> rfl
  | fnv | recorder => rfl
  | hmac inner ih => exact (Hmac.trace_start ih []).trans (Hmac.trace_keyBlock ih [])

theorem trace_default (scheme : Scheme) : scheme.algorithm.default.trace = [] := by
  cases scheme with
  | sha2 v => cases v <;> rfl
  | fnv | recorder => rfl
  | hmac inner => exact inner.hmac.trace_fresh

theorem trace_start_hmac (inner : Scheme) (key : Bytes) :
    (Hmac.start inner.algorithm key).trace =
      if key.length ≤ inner.algorithm.blockSize then []
      else [.longKey key.length inner.algorithm.blockSize] := by
  rw [Hmac.trace_start inner.trace_fresh, Hmac.trace_keyBlock inner.trace_fresh]

theorem trace_keyed (scheme : Scheme) (key : Bytes) :
    (scheme.algorithm.keyed key).trace = (scheme.keyReport key).toList := by
  cases scheme with
  | sha2 v =>
      rw [keyReport, apply_ite Option.toList]
      exact v.trace_keyed key
  | fnv => rfl
  | recorder => cases key <;> rfl
  | hmac inner =>
      rw [keyReport, apply_ite Option.toList]
      exact inner.trace_start_hmac key

/-- A seed reports what the key of its bytes does, and the seed zero what a fresh start does. -/
theorem trace_seeded (scheme : Scheme) (seed : UInt64) :
    (scheme.algorithm.seeded seed).trace =
      if seed = 0 then []
      else (scheme.algorithm.keyed (Bytes.littleEndian 8 seed.toNat)).trace := by
  -- Every start from a seed is a choice between two starts, except for FNV-1a, which chooses below
  -- the trace.
  have hstart {α : Type} (zero other : Logged α) (hzero : zero.trace = []) :
      (if seed = 0 then zero else other).trace = if seed = 0 then [] else other.trace := by
    rw [apply_ite Logged.trace, hzero]
  cases scheme with
  | sha2 v => cases v <;> exact hstart _ _ rfl
  | fnv => exact (ite_self []).symm
  | recorder => exact hstart _ _ rfl
  | hmac inner => exact hstart _ _ (inner.hmac.trace_fresh)

/-- What is reported when an instance is started, in any way. -/
theorem trace_start (scheme : Scheme) (how : Start) :
    (scheme.algorithm.start how).trace = (scheme.startReport how).toList := by
  cases how with
  | fresh => exact scheme.trace_fresh
  | default => exact scheme.trace_default
  | keyed key => exact scheme.trace_keyed key
  | seeded seed =>
      change (scheme.algorithm.seeded seed).trace = _
      rw [scheme.trace_seeded, scheme.trace_keyed, startReport, apply_ite Option.toList]
      rfl

end Scheme

/-! ## Sessions -/

/-- What a step reports: a start reports of its key, and nothing else reports. -/
def Step.report : Step → Option TraceEvent
  | start _ scheme how => scheme.startReport how
  | _ => none

namespace Instance

theorem startLogged_eq (scheme : Scheme) (how : Start) :
    startLogged scheme how = start scheme how := by
  rw [startLogged, scheme.quiet_reporting.start how, start.eq_def]
  cases how <;> rfl

/-- An operation that is quiet on the algorithm of an instance is quiet on the instance. -/
theorem advanceLogged_eq (i : Instance)
    {change : Reporting i.scheme.algorithm → i.scheme.algorithm.State →
      Logged i.scheme.algorithm.State} {state : i.scheme.algorithm.State}
    (h : change i.scheme.reporting i.state = pure state) :
    i.advanceLogged change = pure { i with state } := by
  rw [advanceLogged, h, map_pure]

end Instance

namespace Session

theorem advanceLogged_eq (s : Session) (name : String) {changeLogged : Instance → Logged Instance}
    {change : Instance → Instance} (h : ∀ i, changeLogged i = pure (change i)) :
    s.advanceLogged name changeLogged = pure (s.advance name change) := by
  rw [advanceLogged, advance]
  cases s.get? name with
  | none => rfl
  | some i =>
      simp only [h, pure_bind]

theorem finishLogged_eq (s : Session) (name : String) (read : Bytes → Answer) :
    s.finishLogged name read = pure (s.finish name read) := by
  rw [finishLogged, finish]
  cases s.get? name with
  | none => rfl
  | some i =>
      have hfinish : i.finishLogged = pure i.finish := i.scheme.quiet_reporting.finish i.state
      simp only [hfinish, pure_bind]

/-- One step of a session, whatever instances are running. -/
theorem stepLogged_eq (s : Session) (step : Step) :
    s.stepLogged step = ⟨s.step step, step.report.toList⟩ := by
  have hquiet (i : Instance) := i.scheme.quiet_reporting
  cases step with
  | start name scheme how =>
      have htrace : (Instance.start scheme how).trace = (scheme.startReport how).toList := by
        rw [← Instance.startLogged_eq, Instance.startLogged, Logged.trace_map,
          scheme.quiet_reporting.start, scheme.trace_start]
      calc
        s.stepLogged (.start name scheme how) =
            ⟨s.step (.start name scheme how), (Instance.start scheme how).trace ++ []⟩ := by
          rw [stepLogged, Instance.startLogged_eq]
          rfl
        _ = ⟨s.step (.start name scheme how), (scheme.startReport how).toList⟩ := by
          rw [List.append_nil, htrace]
  | absorb name data =>
      exact s.advanceLogged_eq name fun i => i.advanceLogged_eq ((hquiet i).absorb i.state data)
  | absorbAll name parts =>
      exact s.advanceLogged_eq name fun i =>
        i.advanceLogged_eq ((hquiet i).absorbAll i.state parts)
  | feed name layout shape value =>
      exact s.advanceLogged_eq name fun i =>
        i.advanceLogged_eq ((hquiet i).feed layout shape i.state value)
  | copy name target =>
      rw [stepLogged, step]
      cases s.get? name <;> rfl
  | finish name => exact s.finishLogged_eq name _
  | project name width => exact s.finishLogged_eq name _
  | check name expected => exact s.finishLogged_eq name _

/-- Induction on the steps, over all sessions. -/
theorem runLogged_eq (s : Session) (steps : List Step) :
    s.runLogged steps = ⟨s.run steps, steps.filterMap Step.report⟩ := by
  induction steps generalizing s with
  | nil => rfl
  | cons step steps ih =>
      calc
        s.runLogged (step :: steps) =
            ⟨s.run (step :: steps), step.report.toList ++ (steps.filterMap Step.report ++ [])⟩ := by
          rw [runLogged, stepLogged_eq]
          simp only [ih]
          rfl
        _ = ⟨s.run (step :: steps), (step :: steps).filterMap Step.report⟩ := by
          cases hreport : step.report <;> simp [hreport]

end Session

/-- What is reported of keys, and that nothing else is. A variant of SHA-2 reports its name and the
size of a key that has bytes. A keyed construction over any scheme reports a key that is longer than
a block, with the two sizes, once at whatever depth it stands, and a tag in one step reports the
same. A seed other than zero reports what the key of its eight bytes does, and starts without a key
and digests report nothing.

All operations may report. The starts, with whatever they run, report what was said above, and every
other operation of every scheme is pure: it has the plain result and reports nothing. That holds for
absorbing one or several byte strings, for the result, for feeding a value of any shape, and for the
comparison of a tag. So a session has its plain answers, and what it reports is what its starts do,
in their order. -/
theorem Scheme.only_keys_reported :
    (∀ (v : Sha2.Variant) (key : Bytes),
      (v.algorithm.keyed key).trace =
        if key = [] then [] else [.keyedStart v.name key.length]) ∧
      (∀ (inner : Scheme) (key message : Bytes),
        let H := inner.algorithm
        let expected :=
          if key.length ≤ H.blockSize then [] else [.longKey key.length H.blockSize]
        ((Hmac.of H).keyed key).trace = expected ∧ (Hmac.tag H key message).trace = expected) ∧
      (∀ scheme : Scheme,
        let H := scheme.algorithm
        (∀ seed, (H.seeded seed).trace =
          if seed = 0 then [] else (H.keyed (Bytes.littleEndian 8 seed.toNat)).trace) ∧
          H.fresh.trace = [] ∧ H.default.trace = [] ∧
          (∀ data, (H.digest data).trace = []) ∧ ∀ parts, (H.digestAll parts).trace = []) ∧
      (∀ scheme : Scheme,
        let H := scheme.algorithm
        let R := scheme.reporting
        (∀ how, R.start how = H.start how) ∧
          (∀ data, R.digest data = H.digest data) ∧
          (∀ parts, R.digestAll parts = H.digestAll parts) ∧
          ∀ h : H.State,
            (∀ data, R.absorb h data = pure (H.absorb h data)) ∧
              (∀ parts, R.absorbAll h parts = pure (H.absorbAll h parts)) ∧
              R.finish h = pure (H.finish h) ∧
              ∀ (L : Layout) (s : Shape) (x : s.Value),
                R.feed L s h x = pure (feed H L s h x)) ∧
      (∀ inner : Scheme,
        let H := inner.algorithm
        let R := inner.reporting
        (∀ key message, Hmac.tagLogged R key message = Hmac.tag H key message) ∧
          ∀ s expected, Hmac.checkLogged R s expected = pure (Hmac.check H s expected)) ∧
      ∀ (s : Session) (steps : List Step),
        (s.runLogged steps).value = s.run steps ∧
          (s.runLogged steps).trace = steps.filterMap Step.report := by
  refine ⟨Sha2.Variant.trace_keyed, ?_, ?_, ?_, ?_, ?_⟩
  · intro inner key message H expected
    have hstart : (Hmac.start H key).trace = expected := inner.trace_start_hmac key
    exact ⟨hstart, (Hmac.trace_tag key message).trans hstart⟩
  · intro scheme H
    exact ⟨scheme.trace_seeded, scheme.trace_fresh, scheme.trace_default,
      fun data => (H.trace_digest data).trans scheme.trace_fresh,
      fun parts => (H.trace_digestAll parts).trans scheme.trace_fresh⟩
  · intro scheme H R
    have hR : R.Quiet := scheme.quiet_reporting
    refine ⟨hR.start, hR.digest, hR.digestAll, fun h => ?_⟩
    exact ⟨hR.absorb h, hR.absorbAll h, hR.finish h, fun L s x => hR.feed L s h x⟩
  · intro inner H R
    have hR : R.Quiet := inner.quiet_reporting
    exact ⟨Hmac.tagLogged_eq hR, Hmac.checkLogged_eq hR⟩
  · intro s steps
    have hrun : s.runLogged steps = ⟨s.run steps, steps.filterMap Step.report⟩ :=
      s.runLogged_eq steps
    exact ⟨congrArg Logged.value hrun, congrArg Logged.trace hrun⟩

/-- SHA-256 from the seed five. A key of 65 bytes for the keyed construction over SHA-256, once and
twice. A seed that is longer than a block of FNV-1a. A session that starts two instances, feeds a
set to one of them and compares the other with a tag. -/
theorem Scheme.only_keys_reported_seed :
    let plain : Scheme := .sha2 .sha256
    let long : Bytes := List.replicate 65 0xaa
    let steps : List Step := [.start "plain" plain (.seeded 5),
      .start "keyed" plain.hmac (.keyed long),
      .feed "plain" .standard (.collection .hashedSet .bool) [true, false],
      .absorbAll "keyed" [[1], []], .check "keyed" [], .finish "plain"]
    (plain.algorithm.seeded 5).trace = [.keyedStart "Sha256" 8] ∧
      (plain.hmac.algorithm.keyed long).trace = [.longKey 65 64] ∧
      (Hmac.tag plain.hmac.algorithm long [1]).trace = [.longKey 65 64] ∧
      ((Hmac.of (fnv 4).algorithm).seeded 5).trace = [.longKey 8 4] ∧
      (Session.empty.runLogged steps).trace = [.keyedStart "Sha256" 8, .longKey 65 64] := by
  intro plain long steps
  obtain ⟨hkeyed, htags, hstarts, -, -, hsessions⟩ := only_keys_reported
  obtain ⟨hseeded, -⟩ := hstarts plain
  obtain ⟨hseededSmall, -⟩ := hstarts (fnv 4).hmac
  refine ⟨?_, (htags plain long []).1, (htags plain.hmac long [1]).2, ?_, ?_⟩
  · exact (hseeded 5).trans (hkeyed .sha256 [5, 0, 0, 0, 0, 0, 0, 0])
  · exact (hseededSmall 5).trans (htags (fnv 4) [5, 0, 0, 0, 0, 0, 0, 0] []).1
  · exact (hsessions Session.empty steps).2

end ValueHashing
