import Mathlib.Data.List.Forall2
import ValueHashing.Encoding
import ValueHashing.Proofs.Digits

/-!
# Parts of shapes and agreement of values

Two values of one shape can be compared in everything that is hashed, only in which options are
present, or only in the sizes of texts and collections (`Shape.Agree`). A shape without options
has no flags to disagree in, and one without texts and collections no counts
(`Shape.agree_of_unseen`).

## Implementation notes

Elements of two collections are compared only where the collections are of one size. A comparison
that sees counts asks for that, and one that does not leaves collections of different sizes alone.
-/

namespace ValueHashing

/-- Whether a kind of collection feeds its elements in order, followed by their number. -/
def Collection.counted (kind : Collection) : Bool :=
  match kind.discipline with
  | .contiguous counted | .successive counted => counted
  | .unordered => false

/-- What two values are compared in. -/
inductive Aspect where
  /-- Everything that is hashed. -/
  | contents
  /-- Which options are present. -/
  | flags
  /-- How many bytes texts have and how many elements collections have. -/
  | counts
deriving DecidableEq, Repr

namespace Aspect

/-- Whether the values of leaves are compared. -/
def seesLeaves : Aspect → Bool
  | contents => true
  | flags | counts => false

/-- Whether the presence of options is compared. -/
def seesFlags : Aspect → Bool
  | contents | flags => true
  | counts => false

/-- Whether the sizes of texts and collections are compared. -/
def seesCounts : Aspect → Bool
  | contents | counts => true
  | flags => false

end Aspect

namespace Shape

/-- Whether `p` holds of a shape and of all its parts that are hashed. -/
def everyPart (p : Shape → Bool) : Shape → Bool
  | pair first second => p (pair first second) && first.everyPart p && second.everyPart p
  | record fields => p (record fields) && fields.everyPart p
  | option present => p (option present) && present.everyPart p
  | indirect kind target => p (indirect kind target) && target.everyPart p
  | array count element => p (array count element) && element.everyPart p
  | collection kind element => p (collection kind element) && element.everyPart p
  | s => p s

/-- Whether every text and collection is followed by its size, and different leaves have different
bytes. This leaves out floating-point numbers, whose two zeros have the same bytes, and lengths by
themselves, which are cut to the width of a length. -/
def delimited (s : Shape) : Bool :=
  s.everyPart fun
    | float _ | length => false
    | collection kind _ => kind.counted
    | _ => true

/-- Whether no part is an option. -/
def flagless (s : Shape) : Bool :=
  s.everyPart fun
    | option _ => false
    | _ => true

/-- Whether no part is a text or a collection. -/
def countless (s : Shape) : Bool :=
  s.everyPart fun
    | text | collection .. => false
    | _ => true

/-- Whether no part is hidden. -/
def visible (s : Shape) : Bool :=
  s.everyPart fun
    | hidden _ => false
    | _ => true

@[simp] theorem delimited_pair (first second : Shape) :
    (pair first second).delimited = (first.delimited && second.delimited) := rfl

@[simp] theorem flagless_pair (first second : Shape) :
    (pair first second).flagless = (first.flagless && second.flagless) := rfl

@[simp] theorem countless_pair (first second : Shape) :
    (pair first second).countless = (first.countless && second.countless) := rfl

@[simp] theorem visible_pair (first second : Shape) :
    (pair first second).visible = (first.visible && second.visible) := rfl

@[simp] theorem delimited_collection (kind : Collection) (element : Shape) :
    (collection kind element).delimited = (kind.counted && element.delimited) := rfl

/-- Whether the sizes of all texts and collections fit into the width of a length. -/
def countsFit (L : Layout) : (s : Shape) → s.Value → Bool
  | text, x => (Bytes.utf8 x).length < 2 ^ L.lengthWidth.bits
  | pair first second, x => first.countsFit L x.1 && second.countsFit L x.2
  | record fields, x => fields.countsFit L x
  | option _, none => true
  | option present, some x => present.countsFit L x
  | indirect _ target, x => target.countsFit L x
  | array _ element, x => x.toList.all (element.countsFit L)
  | collection _ element, xs =>
      decide (xs.length < 2 ^ L.lengthWidth.bits) && xs.all (element.countsFit L)
  | _, _ => true

/-- Two values agree in an aspect. -/
def Agree (aspect : Aspect) : (s : Shape) → s.Value → s.Value → Prop
  | text, x, y =>
      (aspect.seesLeaves → x = y) ∧
        (aspect.seesCounts → (Bytes.utf8 x).length = (Bytes.utf8 y).length)
  | pair first second, x, y => first.Agree aspect x.1 y.1 ∧ second.Agree aspect x.2 y.2
  | hidden _, _, _ => True
  | record fields, x, y => fields.Agree aspect x y
  | option _, none, none => True
  | option present, some x, some y => present.Agree aspect x y
  | option _, _, _ => aspect.seesFlags = false
  | indirect _ target, x, y => target.Agree aspect x y
  | array _ element, x, y => List.Forall₂ (element.Agree aspect) x.toList y.toList
  | collection _ element, xs, ys =>
      (aspect.seesCounts → xs.length = ys.length) ∧
        (xs.length = ys.length → List.Forall₂ (element.Agree aspect) xs ys)
  | _, x, y => aspect.seesLeaves → x = y

variable {aspect : Aspect}

theorem forall₂_of_length_eq {α : Type} {R : α → α → Prop} {xs ys : List α}
    (hlength : xs.length = ys.length) (h : ∀ x y, R x y) : List.Forall₂ R xs ys :=
  List.forall₂_iff_zip.mpr ⟨hlength, fun _ => h _ _⟩

/-- Values agree in what there is nothing of. -/
theorem agree_of_unseen (hleaves : aspect.seesLeaves = false) {s : Shape}
    (hflags : aspect.seesFlags = true → s.flagless = true)
    (hcounts : aspect.seesCounts = true → s.countless = true) (x y : s.Value) :
    s.Agree aspect x y := by
  induction s with
  | int | machineInt | bool | char | float | unit | length => simp [Agree, hleaves]
  | text =>
      refine ⟨fun h => ?_, fun h => ?_⟩
      · rw [hleaves] at h
        cases h
      · cases hcounts h
  | pair first second ihFirst ihSecond =>
      simp only [flagless_pair, countless_pair, Bool.and_eq_true] at hflags hcounts
      exact ⟨ihFirst (fun h => (hflags h).1) (fun h => (hcounts h).1) x.1 y.1,
        ihSecond (fun h => (hflags h).2) (fun h => (hcounts h).2) x.2 y.2⟩
  | hidden => trivial
  | record fields ih =>
      exact ih hflags hcounts x y
  | option present ih =>
      have hunseen : aspect.seesFlags = false :=
        Bool.eq_false_iff.mpr fun h => by cases hflags h
      cases x with
      | none => cases y <;> simp [Agree, hunseen]
      | some x =>
          cases y with
          | none => exact hunseen
          | some y => exact ih (fun h => by rw [hunseen] at h; cases h) hcounts x y
  | indirect kind target ih =>
      exact ih hflags hcounts x y
  | array count element ih =>
      exact forall₂_of_length_eq (by simp) (ih hflags hcounts)
  | collection kind element ih =>
      have hunseen : aspect.seesCounts = false :=
        Bool.eq_false_iff.mpr fun h => by cases hcounts h
      refine ⟨fun h => ?_, fun hlength => ?_⟩
      · rw [hunseen] at h
        cases h
      · exact forall₂_of_length_eq hlength
          (ih hflags fun h => by rw [hunseen] at h; cases h)

theorem agree_counts_of_countless {s : Shape} (h : s.countless = true) (x y : s.Value) :
    s.Agree .counts x y :=
  agree_of_unseen rfl (fun hflags => by cases hflags) (fun _ => h) x y

theorem agree_refl (s : Shape) (x : s.Value) : s.Agree aspect x x := by
  induction s with
  | int | machineInt | bool | char | float | unit | length => exact fun _ => rfl
  | text => exact ⟨fun _ => rfl, fun _ => rfl⟩
  | pair first second ihFirst ihSecond => exact ⟨ihFirst x.1, ihSecond x.2⟩
  | hidden => trivial
  | record fields ih => exact ih x
  | option present ih =>
      cases x with
      | none => trivial
      | some x => exact ih x
  | indirect kind target ih => exact ih x
  | array count element ih => exact List.forall₂_same.mpr fun y _ => ih y
  | collection kind element ih =>
      exact ⟨fun _ => rfl, fun _ => List.forall₂_same.mpr fun y _ => ih y⟩

/-- Lists whose elements agree in their contents have equal elements. -/
theorem eq_of_forall₂_agree {s : Shape} (h : ∀ x y, s.Agree .contents x y → x = y)
    {xs ys : List s.Value} (hxy : List.Forall₂ (s.Agree .contents) xs ys) : xs = ys := by
  have heq : List.Forall₂ (· = ·) xs ys := hxy.imp h
  rwa [List.forall₂_eq_eq_eq] at heq

/-- Where nothing is hidden, values that agree in their contents are equal. -/
theorem agree_contents_iff_eq {s : Shape} (hs : s.visible = true) (x y : s.Value) :
    s.Agree .contents x y ↔ x = y := by
  constructor
  · intro h
    induction s with
    | int | machineInt | bool | char | float | unit | length => exact h rfl
    | text => exact h.1 rfl
    | pair first second ihFirst ihSecond =>
        rw [visible_pair, Bool.and_eq_true] at hs
        exact Prod.ext (ihFirst hs.1 x.1 y.1 h.1) (ihSecond hs.2 x.2 y.2 h.2)
    | hidden => cases hs
    | record fields ih =>
        exact ih hs x y h
    | option present ih =>
        cases x with
        | none =>
            cases y with
            | none => rfl
            | some y => cases h
        | some x =>
            cases y with
            | none => cases h
            | some y => exact congrArg some (ih hs x y h)
    | indirect kind target ih =>
        exact ih hs x y h
    | array count element ih =>
        exact Vector.toList_inj.mp (eq_of_forall₂_agree (ih hs) h)
    | collection kind element ih =>
        exact eq_of_forall₂_agree (ih hs) (h.2 (h.1 rfl))
  · rintro rfl
    exact s.agree_refl x

end Shape

end ValueHashing
