import Dataflow.Graph.Codec
import Dataflow.Instruction.Codec
import Dataflow.Proofs.ExactArithmetic

/-! Descriptions that are written as JSON and read again. Only one value has no form of its own: a return of
the literal null is written like a return of nothing, and read as that. Positions are those of a 64-bit
machine; larger ones are written too, but no reader takes them. -/

namespace Dataflow

theorem bind_eq_ok {ε α β : Type} {x : Except ε α} {f : α → Except ε β} {b : β} :
    (x >>= f) = .ok b ↔ ∃ a, x = .ok a ∧ f a = .ok b := by
  cases x <;> simp [bind, Except.bind]

/-- Reading a list of written items gives what each of them gives. -/
theorem mapM_written {m : Type → Type} [Monad m] [LawfulMonad m] {α β γ : Type} {write : α → γ}
    {read : γ → m β} {result : α → β} {items : List α}
    (each : ∀ x ∈ items, read (write x) = pure (result x)) :
    (items.map write).mapM read = pure (items.map result) := by
  induction items with
  | nil => simp
  | cons x rest ih =>
    have first := each x List.mem_cons_self
    have others := ih fun y member => each y (List.mem_cons_of_mem _ member)
    simp [first, others]

namespace Json

variable {α σ : Type}

theorem mem_of_mapM_ok {read : Json → Except Misfit α} {items : List Json} {values : List α}
    (done : items.mapM read = .ok values) {x : α} (member : x ∈ values) : ∃ j, read j = .ok x := by
  induction items generalizing values with
  | nil => simp_all [pure, Except.pure]
  | cons item rest ih =>
    rw [List.mapM_cons] at done
    obtain ⟨first, readFirst, done⟩ := bind_eq_ok.mp done
    obtain ⟨others, readOthers, done⟩ := bind_eq_ok.mp done
    cases done
    rcases List.mem_cons.mp member with rfl | later
    · exact ⟨item, readFirst⟩
    · exact ih readOthers later

theorem required_eq_ok {value : Option α} {a : α} : required value = .ok a ↔ value = some a := by
  cases value <;> simp [required]

theorem lt_of_nat? {limit n : Nat} {j : Json} (read : j.nat? limit = some n) : n < limit := by
  unfold nat? at read
  split at read
  · split at read
    · rename_i bound
      cases read
      exact bound
    · contradiction
  · contradiction

theorem name_of_choose? {ofName? : String → Option α} {j : Json} {a : α}
    (chosen : choose? ofName? j = some a) : ∃ name, ofName? name = some a := by
  unfold choose? choose at chosen
  split at chosen
  · rename_i text
    cases named : ofName? text with
    | none => simp [named, Except.toOption] at chosen
    | some b => exact ⟨text, by simpa [named, Except.toOption] using chosen⟩
  · rename_i key value rest
    cases named : ofName? key with
    | none => simp [named, Except.toOption] at chosen
    | some b =>
      cases value with
      | null =>
        refine ⟨key, ?_⟩
        cases rest <;> simp_all [Except.toOption]
      | bool | int | real | str | arr | obj => simp [named, Except.toOption] at chosen
  · simp [Except.toOption] at chosen

theorem of_nextField {read : Json → Except Misfit α} {items rest : List Json} {a : α}
    (taken : nextField read items = .ok (a, rest)) : ∃ j, read j = .ok a := by
  cases items with
  | nil => contradiction
  | cons field others =>
    obtain ⟨b, readField, same⟩ := bind_eq_ok.mp taken
    cases same
    exact ⟨field, readField⟩

/-- What the reader of an item guarantees holds of all items of a list. -/
theorem forall_of_listOf {item : Json → Except Misfit α} {holds : α → Prop}
    (each : ∀ j x, item j = .ok x → holds x) {j : Json} {values : List α}
    (taken : listOf item j = .ok values) : ∀ x ∈ values, holds x := by
  intro x member
  unfold listOf at taken
  split at taken
  · obtain ⟨j, readOne⟩ := mem_of_mapM_ok taken member
    exact each j x readOne
  · contradiction

/-- What reading a member keeps holds when all members have been read. -/
theorem foldMembers_keeps {known : List String} {read : σ → String → Json → Except Misfit σ}
    {holds : σ → Prop} (keeps : ∀ s key value next, holds s → read s key value = .ok next → holds next)
    {seen : List String} {s final : σ} {members : List (String × Json)} (start : holds s)
    (done : foldMembers known read seen s members = .ok final) : holds final := by
  induction members generalizing seen s with
  | nil =>
    cases done
    exact start
  | cons member rest ih =>
    obtain ⟨key, value⟩ := member
    rw [foldMembers] at done
    split at done
    · split at done
      · contradiction
      · split at done
        · rename_i next taken
          exact ih (keeps s key value next start taken) done
        · contradiction
    · exact ih start done

@[simp] theorem fitsDouble_null : Json.null.fitsDouble = true := rfl

@[simp] theorem fitsDouble_str (text : String) : (Json.str text).fitsDouble = true := rfl

@[simp] theorem fitsDouble_arr (items : List Json) : (Json.arr items).fitsDouble = itemsFit items := rfl

theorem itemsFit_iff {items : List Json} :
    itemsFit items = true ↔ ∀ j ∈ items, j.fitsDouble = true := by
  induction items with
  | nil => simp [itemsFit]
  | cons item rest ih => simp [itemsFit, ih]

end Json

namespace Operand

theorem fit?_toInt (n : Int64) : ArithOp.fit? n.toInt = some n :=
  ArithOp.fit?_eq_some_iff.mpr rfl

@[simp] theorem ofJson?_toJson (operand : Operand) : ofJson? operand.toJson = some operand := by
  cases operand with
  | null | var => rfl
  | int value => simp [toJson, ofJson?, fit?_toInt]

theorem eq_null_of_ofJson? {j : Json} (read : ofJson? j = some .null) : j = .null := by
  unfold ofJson? at read
  split at read <;> simp_all

/-- A 64-bit integer is no number that overflows. -/
@[simp] theorem fitsDouble_toJson (operand : Operand) : operand.toJson.fitsDouble = true := by
  cases operand with
  | null | var => rfl
  | int value =>
    have low := value.le_toInt
    have high := value.toInt_lt
    have small : value.toInt.natAbs < UInt64.size := by
      simp only [UInt64.size]
      omega
    simp [toJson, Json.fitsDouble, Json.overflows, small]

end Operand

namespace Instruction

/-- The instruction that is read where this one was written. -/
def canonical : Instruction → Instruction
  | .ret (some .null) => .ret none
  | i => i

theorem canonical_eq_self {i : Instruction} : i.canonical = i ↔ i ≠ .ret (some .null) := by
  cases i with
  | ret value =>
    cases value with
    | none => simp [canonical]
    | some operand => cases operand <;> simp [canonical]
  | new | copy | const | arith | compare | load | store | call | nop => simp [canonical]

theorem kinds_sound : ∀ kind ∈ kinds, kinds.find? (fun k => decide (k.1 = kind.1)) = some kind ∧
    "op" ∉ kind.2 ∧ kind.2.Nodup := by
  decide

theorem taggedKind_found (style : KindStyle) (kind : String × List String) {fields : Fields}
    (untagged : "op" ∉ fields.map Prod.fst) (fits : ∀ field ∈ fields, field.2.fitsDouble = true) :
    taggedKind style (some kind) fields = .ok kind := by
  induction fields with
  | nil => rfl
  | cons field rest ih =>
    simp only [List.map_cons, List.mem_cons, not_or] at untagged
    have fitting := fits field List.mem_cons_self
    rw [taggedKind, if_neg (Ne.symm untagged.1), if_pos fitting]
    exact ih untagged.2 fun other member => fits other (List.mem_cons_of_mem _ member)

/-- Of an object that holds exactly the fields of its kind, the fields are read. -/
theorem ofJson_tagged (style : KindStyle) {kind : String} {fields : Fields}
    (listed : (kind, fields.map Prod.fst) ∈ kinds)
    (fits : ∀ field ∈ fields, field.2.fitsDouble = true) :
    ofJson style (.obj (("op", .str kind) :: fields)) = Json.required (ofFields? kind fields) := by
  obtain ⟨found, untagged, distinct⟩ := kinds_sound _ listed
  have tag : taggedKind style none (("op", .str kind) :: fields) = .ok (kind, fields.map Prod.fst) := by
    have named : kind? style (.str kind) = some (kind, fields.map Prod.fst) := found
    simp [taggedKind, named, taggedKind_found style _ untagged fits]
  have kept : (("op", Json.str kind) :: fields).filter (fun m => (fields.map Prod.fst).contains m.1) =
      fields := by
    rw [List.filter_cons_of_neg (by simpa using untagged), List.filter_eq_self]
    intro field member
    exact List.contains_iff_mem.mpr (List.mem_map_of_mem member)
  have members : Json.knownMembers? (fields.map Prod.fst) (("op", .str kind) :: fields) = some fields := by
    rw [Json.knownMembers?, kept, if_pos distinct]
  simp [ofJson, tag, bind, Except.bind, members, Json.required]

theorem Fields.get?_cons (key : String) (value : Json) (rest : Fields) (name : String) :
    Fields.get? ((key, value) :: rest) name = if name = key then some value else Fields.get? rest name := by
  by_cases same : name = key
  · simp [Fields.get?, same]
  · have differs : (name == key) = false := beq_false_of_ne same
    simp [Fields.get?, List.lookup_cons, differs, same]

/-- An instruction is written as its kind and the fields of that kind, from which it is read. -/
theorem toJson_tagged (i : Instruction) : ∃ kind fields,
    i.toJson = .obj (("op", .str kind) :: fields) ∧ (kind, fields.map Prod.fst) ∈ kinds ∧
      (∀ field ∈ fields, field.2.fitsDouble = true) ∧ ofFields? kind fields = some i.canonical := by
  cases i with
  | new dst =>
    refine ⟨"new", _, rfl, by simp [kinds], by simp, ?_⟩
    simp [ofFields?, Fields.text?, Fields.get?_cons, canonical]
  | copy dst src =>
    refine ⟨"copy", _, rfl, by simp [kinds], by simp, ?_⟩
    simp [ofFields?, Fields.text?, Fields.get?_cons, canonical]
  | const dst value =>
    refine ⟨"const", _, rfl, by simp [kinds], by simp, ?_⟩
    simp [ofFields?, Fields.text?, Fields.operand?, Fields.get?_cons, canonical]
  | arith dst kind lhs rhs =>
    refine ⟨"arith", _, rfl, by simp [kinds], by simp, ?_⟩
    simp [ofFields?, Fields.text?, Fields.operand?, Fields.arithOp?, Fields.get?_cons, Json.chooseWithin?,
      ArithOp.ofName?_name, canonical]
  | compare cmp lhs rhs =>
    refine ⟨"compare", _, rfl, by simp [kinds], by simp, ?_⟩
    simp [ofFields?, Fields.comparison?, Fields.operand?, Fields.get?_cons, Json.chooseWithin?,
      Comparison.ofName?_name, canonical]
  | load dst object field =>
    refine ⟨"load", _, rfl, by simp [kinds], by simp, ?_⟩
    simp [ofFields?, Fields.text?, Fields.get?_cons, canonical]
  | store object field value =>
    refine ⟨"store", _, rfl, by simp [kinds], by simp, ?_⟩
    simp [ofFields?, Fields.text?, Fields.operand?, Fields.get?_cons, canonical]
  | call dst receiver method args =>
    have read : (args.map Operand.toJson).mapM Operand.ofJson? = some (args.map id) :=
      mapM_written fun operand _ => operand.ofJson?_toJson
    refine ⟨"call", _, rfl, by simp [kinds], ?_, ?_⟩
    · cases dst <;> cases receiver <;> simp [Json.itemsFit_iff]
    · cases dst <;> cases receiver <;>
        simp [ofFields?, Fields.text?, Fields.optionalText?, Fields.operands?, Fields.get?_cons, read, canonical]
  | ret value =>
    cases value with
    | none =>
      refine ⟨"return", _, rfl, by simp [kinds], by simp, ?_⟩
      simp [ofFields?, Fields.optionalOperand?, Fields.get?_cons, canonical]
    | some operand =>
      refine ⟨"return", _, rfl, by simp [kinds], by simp, ?_⟩
      cases operand with
      | null => rfl
      | int n =>
        simp [ofFields?, Fields.optionalOperand?, Fields.get?_cons, Operand.toJson, Operand.ofJson?,
          Operand.fit?_toInt, canonical]
      | var name => rfl
  | nop => exact ⟨"nop", _, rfl, by simp [kinds], by simp, rfl⟩

theorem ofJson_toJson (style : KindStyle) (i : Instruction) :
    ofJson style i.toJson = .ok i.canonical := by
  obtain ⟨kind, fields, written, listed, fits, read⟩ := i.toJson_tagged
  rw [written, ofJson_tagged style listed fits, read]
  rfl

theorem Fields.optionalOperand?_ne_null (fields : Fields) (name : String) :
    fields.optionalOperand? name ≠ some (some .null) := by
  unfold Fields.optionalOperand?
  split
  · simp
  · simp
  · rename_i j notNull _
    intro read
    obtain ⟨operand, taken, same⟩ := Option.map_eq_some_iff.mp read
    cases same
    cases Operand.eq_null_of_ofJson? taken
    contradiction

/-- No fields are read as a return of null. -/
theorem ofFields?_canonical {kind : String} {fields : Fields} {i : Instruction}
    (read : ofFields? kind fields = some i) : i.canonical = i := by
  rw [canonical_eq_self]
  rintro rfl
  unfold ofFields? at read
  split at read <;> simp [Option.bind_eq_some_iff, Fields.optionalOperand?_ne_null] at read

theorem ofJson_canonical {style : KindStyle} {j : Json} {i : Instruction}
    (read : ofJson style j = .ok i) : i.canonical = i := by
  unfold ofJson at read
  split at read
  · obtain ⟨kind, _, read⟩ := bind_eq_ok.mp read
    obtain ⟨fields, _, read⟩ := bind_eq_ok.mp read
    exact ofFields?_canonical (Json.required_eq_ok.mp read)
  · split at read
    · contradiction
    · split at read
      · obtain ⟨fields, _, read⟩ := bind_eq_ok.mp read
        exact ofFields?_canonical (Json.required_eq_ok.mp read)
      · contradiction
  · contradiction

end Instruction

/-! Positions fit in 64 bits. -/

def Endpoint.Addressable : Endpoint → Prop
  | .start | .finish => True
  | .instruction position => position < positionLimit

instance : DecidablePred Endpoint.Addressable
  | .start | .finish => .isTrue trivial
  | .instruction position => Nat.decLt position positionLimit

def EdgeDescription.Addressable (e : EdgeDescription) : Prop := e.source.Addressable ∧ e.target.Addressable

instance (e : EdgeDescription) : Decidable e.Addressable :=
  inferInstanceAs (Decidable (e.source.Addressable ∧ e.target.Addressable))

namespace Endpoint

theorem ofJson_toJson {e : Endpoint} (addressable : e.Addressable) : ofJson e.toJson = .ok e := by
  cases e with
  | start | finish => rfl
  | instruction position =>
    have found : (Json.int position).nat? positionLimit = some position := if_pos addressable
    simp [ofJson, toJson, found]

theorem ofJson_addressable {j : Json} {e : Endpoint} (read : ofJson j = .ok e) : e.Addressable := by
  unfold ofJson at read
  split at read
  · rename_i position found
    cases read
    exact Json.lt_of_nat? found
  · split at read
    · obtain ⟨name, named⟩ := Json.name_of_choose? (Json.required_eq_ok.mp read)
      unfold ofName? at named
      split at named <;> cases named <;> trivial
    · contradiction

end Endpoint

namespace EdgeDescription

theorem ofJson_toJson {e : EdgeDescription} (addressable : e.Addressable) : ofJson e.toJson = .ok e := by
  obtain ⟨source, target, label⟩ := e
  have readSource := Endpoint.ofJson_toJson addressable.1
  have readTarget := Endpoint.ofJson_toJson addressable.2
  simp [ofJson, toJson, Json.foldMembers, Draft.read, Draft.finish, Draft.empty, readSource, readTarget,
    Json.choose, Label.ofName?_name, Json.required, bind, Except.bind, pure, Except.pure]

/-- The endpoints read so far are addressable. -/
def Draft.Sound (d : Draft) : Prop :=
  (∀ e ∈ d.source, e.Addressable) ∧ ∀ e ∈ d.target, e.Addressable

theorem Draft.read_sound {d next : Draft} {key : String} {value : Json} (sound : d.Sound)
    (read : d.read key value = .ok next) : next.Sound := by
  unfold Draft.read at read
  split at read
  · obtain ⟨e, taken, read⟩ := bind_eq_ok.mp read
    cases read
    exact ⟨by simpa using Endpoint.ofJson_addressable taken, sound.2⟩
  · obtain ⟨e, taken, read⟩ := bind_eq_ok.mp read
    cases read
    exact ⟨sound.1, by simpa using Endpoint.ofJson_addressable taken⟩
  · obtain ⟨label, _, read⟩ := bind_eq_ok.mp read
    cases read
    exact sound

theorem ofJson_addressable {j : Json} {e : EdgeDescription} (read : ofJson j = .ok e) : e.Addressable := by
  unfold ofJson at read
  split at read
  · obtain ⟨draft, folded, finished⟩ := bind_eq_ok.mp read
    have sound : draft.Sound := Json.foldMembers_keeps (fun _ _ _ _ => Draft.read_sound)
      (by simp [Draft.Sound, Draft.empty]) folded
    obtain ⟨source, hasSource, finished⟩ := bind_eq_ok.mp finished
    obtain ⟨target, hasTarget, finished⟩ := bind_eq_ok.mp finished
    cases finished
    exact ⟨sound.1 _ (Json.required_eq_ok.mp hasSource), sound.2 _ (Json.required_eq_ok.mp hasTarget)⟩
  · obtain ⟨⟨source, items⟩, takenSource, read⟩ := bind_eq_ok.mp read
    obtain ⟨⟨target, items⟩, takenTarget, read⟩ := bind_eq_ok.mp read
    obtain ⟨⟨label, items⟩, _, read⟩ := bind_eq_ok.mp read
    obtain ⟨_, _, read⟩ := bind_eq_ok.mp read
    obtain ⟨_, readSource⟩ := Json.of_nextField takenSource
    obtain ⟨_, readTarget⟩ := Json.of_nextField takenTarget
    cases read
    exact ⟨Endpoint.ofJson_addressable readSource, Endpoint.ofJson_addressable readTarget⟩
  · contradiction

end EdgeDescription

namespace Description

variable {I : Type}

def Addressable (d : Description I) : Prop := ∀ e ∈ d.edges, e.Addressable

instance (d : Description I) : Decidable d.Addressable :=
  inferInstanceAs (Decidable (∀ e ∈ d.edges, e.Addressable))

/-- If instructions come back changed by `back`, so does a description, and nothing else in it changes. -/
theorem ofJson_toJson {write : I → Json} {read : Json → Except Misfit I} {back : I → I}
    (each : ∀ i, read (write i) = .ok (back i)) {d : Description I} (addressable : d.Addressable) :
    ofJson read (d.toJson write) = .ok { d with instructions := d.instructions.map back } := by
  have instructions : (d.instructions.map write).mapM read = .ok (d.instructions.map back) :=
    mapM_written fun i _ => each i
  have edges : (d.edges.map EdgeDescription.toJson).mapM EdgeDescription.ofJson = .ok (d.edges.map id) :=
    mapM_written fun e member => EdgeDescription.ofJson_toJson (addressable e member)
  simp [ofJson, toJson, Json.foldMembers, Draft.read, Draft.finish, Draft.empty, Json.text, Json.listOf,
    instructions, edges, Json.required, bind, Except.bind, pure, Except.pure]

/-- The instructions read so far satisfy what the reader guarantees, and the edges are addressable. -/
def Draft.Sound (holds : I → Prop) (d : Draft I) : Prop :=
  (∀ instructions ∈ d.instructions, ∀ i ∈ instructions, holds i) ∧
    ∀ edges ∈ d.edges, ∀ e ∈ edges, e.Addressable

section

variable {holds : I → Prop} {read : Json → Except Misfit I} (each : ∀ j i, read j = .ok i → holds i)

include each

theorem Draft.read_sound {d next : Draft I} {key : String} {value : Json} (sound : d.Sound holds)
    (taken : d.read read key value = .ok next) : next.Sound holds := by
  unfold Draft.read at taken
  split at taken
  · obtain ⟨name, _, taken⟩ := bind_eq_ok.mp taken
    cases taken
    exact sound
  · obtain ⟨instructions, listed, taken⟩ := bind_eq_ok.mp taken
    cases taken
    exact ⟨by simpa using Json.forall_of_listOf each listed, sound.2⟩
  · obtain ⟨edges, listed, taken⟩ := bind_eq_ok.mp taken
    cases taken
    exact ⟨sound.1, by simpa using Json.forall_of_listOf (fun _ _ => EdgeDescription.ofJson_addressable) listed⟩

theorem ofJson_sound {j : Json} {d : Description I} (taken : ofJson read j = .ok d) :
    (∀ i ∈ d.instructions, holds i) ∧ d.Addressable := by
  unfold ofJson at taken
  split at taken
  · obtain ⟨draft, folded, finished⟩ := bind_eq_ok.mp taken
    have sound : draft.Sound holds := Json.foldMembers_keeps (fun _ _ _ _ => Draft.read_sound each)
      (by simp [Draft.Sound, Draft.empty]) folded
    obtain ⟨name, _, finished⟩ := bind_eq_ok.mp finished
    obtain ⟨instructions, hasInstructions, finished⟩ := bind_eq_ok.mp finished
    obtain ⟨edges, hasEdges, finished⟩ := bind_eq_ok.mp finished
    cases finished
    exact ⟨sound.1 _ (Json.required_eq_ok.mp hasInstructions), sound.2 _ (Json.required_eq_ok.mp hasEdges)⟩
  · obtain ⟨⟨name, items⟩, _, taken⟩ := bind_eq_ok.mp taken
    obtain ⟨⟨instructions, items⟩, takenInstructions, taken⟩ := bind_eq_ok.mp taken
    obtain ⟨⟨edges, items⟩, takenEdges, taken⟩ := bind_eq_ok.mp taken
    obtain ⟨_, _, taken⟩ := bind_eq_ok.mp taken
    obtain ⟨_, listedInstructions⟩ := Json.of_nextField takenInstructions
    obtain ⟨_, listedEdges⟩ := Json.of_nextField takenEdges
    cases taken
    exact ⟨Json.forall_of_listOf each listedInstructions,
      Json.forall_of_listOf (fun _ _ => EdgeDescription.ofJson_addressable) listedEdges⟩
  · contradiction

end

/-- The description that is read where this one was written. -/
def canonical (d : Description Instruction) : Description Instruction :=
  { d with instructions := d.instructions.map Instruction.canonical }

theorem canonical_eq_self {d : Description Instruction} :
    d.canonical = d ↔ ∀ i ∈ d.instructions, i ≠ .ret (some .null) := by
  obtain ⟨name, instructions, edges⟩ := d
  simp only [canonical, mk.injEq, true_and, and_true, ← Instruction.canonical_eq_self]
  calc instructions.map Instruction.canonical = instructions
      ↔ instructions.map Instruction.canonical = instructions.map id := by rw [List.map_id]
    _ ↔ ∀ i ∈ instructions, i.canonical = i := List.map_inj_left

/-- Written and read again. -/
def readBack (style : Instruction.KindStyle) (d : Description Instruction) :
    Except Misfit (Description Instruction) :=
  ofJson (Instruction.ofJson style) (d.toJson Instruction.toJson)

theorem readBack_eq {style : Instruction.KindStyle} {d : Description Instruction} (addressable : d.Addressable) :
    readBack style d = .ok d.canonical :=
  ofJson_toJson (Instruction.ofJson_toJson style) addressable

theorem ofJson_instructions {style : Instruction.KindStyle} {j : Json} {d : Description Instruction}
    (read : ofJson (Instruction.ofJson style) j = .ok d) : d.canonical = d ∧ d.Addressable := by
  obtain ⟨canonical, addressable⟩ := ofJson_sound (fun _ _ => Instruction.ofJson_canonical) read
  refine ⟨canonical_eq_self.mpr ?_, addressable⟩
  intro i member
  exact Instruction.canonical_eq_self.mp (canonical i member)

/-- Written and read again, a description comes back but for its returns of null, if its positions fit; so it
comes back as it was exactly if it has no such return, and always if it was read itself. -/
theorem readBack_canonical (style : Instruction.KindStyle) (d : Description Instruction) :
    (readBack style d = .ok d.canonical ↔ d.Addressable) ∧
    (readBack style d = .ok d ↔ d.Addressable ∧ ∀ i ∈ d.instructions, i ≠ .ret (some .null)) ∧
    ∀ j, ofJson (Instruction.ofJson style) j = .ok d → readBack style d = .ok d := by
  refine ⟨⟨?_, readBack_eq⟩, ⟨?_, ?_⟩, ?_⟩
  · intro back
    -- Reading takes no other positions, and those of `d.canonical` are those of `d`.
    exact (ofJson_instructions back).2
  · intro back
    obtain ⟨same, addressable⟩ := ofJson_instructions back
    exact ⟨addressable, canonical_eq_self.mp same⟩
  · rintro ⟨addressable, noNull⟩
    rw [readBack_eq addressable, canonical_eq_self.mpr noNull]
  · intro j read
    obtain ⟨same, addressable⟩ := ofJson_instructions read
    rw [readBack_eq addressable, same]

/-- Names that look like null, a number, a tag or an endpoint, and the last position there is. -/
def confusable : Description Instruction where
  name := "null"
  instructions := [.ret (some .null), .ret (some (.var "null")), .const "op" (.var "42"),
    .const "start" (.int Int64.minValue), .call none (some "null") "" [.null, .var "", .int 0]]
  edges := [⟨.start, .instruction 0, .normal⟩, ⟨.instruction 18446744073709551615, .finish, .exceptional⟩]

theorem readBack_canonical_confusable :
    readBack .byName confusable = .ok confusable.canonical ∧ readBack .byName confusable ≠ .ok confusable ∧
      readBack .byName confusable.canonical = .ok confusable.canonical := by
  have back := (readBack_canonical .byName confusable).1.mpr (by decide)
  refine ⟨back, ?_, (readBack_canonical .byName confusable.canonical).2.2 _ back⟩
  intro same
  have noNull := ((readBack_canonical .byName confusable).2.1.mp same).2
  exact noNull (.ret (some .null)) List.mem_cons_self rfl

end Description

end Dataflow
