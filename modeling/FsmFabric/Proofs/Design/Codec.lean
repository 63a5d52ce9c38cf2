import FsmFabric.Design.Codec
import FsmFabric.Proofs.Mask.Codec

/-!
# Designs survive being written

A design is written as a JSON value and decoded again. The decoder accepts several spellings of the
same event, but the one that is written always leads back to the design it came from: the same
events with the same conditions, none of them simplified, and the same constants with their widths.
The only thing that can get in the way is a number that its kind has no room for.
-/

namespace FsmFabric

namespace Expr

def InRange : Expr → Prop
  | inputs positions => ∀ i ∈ positions, i < UInt64.size
  | constant mask => mask.size < UInt64.size
  | literal _ => True
  | not e | reduce _ e | logicNot e => e.InRange
  | bitwise _ l r | compare _ l r | logic _ l r => l.InRange ∧ r.InRange

variable {unit : Json → Bool}

theorem unary?_reduce (op : Reduction) : unary? op.tag = some (reduce op) := by
  cases op <;> rfl

theorem binary?_bitwise (op : BitOp) : binary? op.tag = some (bitwise op) := by
  cases op <;> rfl

theorem binary?_logic (op : Connective) : binary? op.tag = some (logic op) := by
  cases op <;> rfl

theorem toJson_ne_array (e : Expr) (items : List Json) : e.toJson ≠ .array items := by
  intro same
  cases e with
  | compare negated l r => cases negated <;> cases same
  | literal value => cases value <;> cases same
  | inputs | constant | not | bitwise | reduce | logicNot | logic => cases same

theorem ofJson_unary {tag : String} {op : Expr → Expr} {e : Expr} (known : unary? tag = some op)
    (read : ofJson unit e.toJson = .ok e) :
    ofJson unit (.object [(tag, e.toJson)]) = .ok (op e) := by
  have notInputs : tag ≠ "identifier" := by
    rintro rfl
    cases known
  have notConstant : tag ≠ "constant" := by
    rintro rfl
    cases known
  rw [ofJson, known, read]
  · rfl
  · exact notInputs
  · exact notConstant
  · exact fun _ _ _ => e.toJson_ne_array _
  · exact fun _ => e.toJson_ne_array _

theorem ofJson_binary {tag : String} {op : Expr → Expr → Expr} {l r : Expr}
    (known : binary? tag = some op) (left : ofJson unit l.toJson = .ok l)
    (right : ofJson unit r.toJson = .ok r) :
    ofJson unit (.object [(tag, .array [l.toJson, r.toJson])]) = .ok (op l r) := by
  have notInputs : tag ≠ "identifier" := by
    rintro rfl
    cases known
  have notConstant : tag ≠ "constant" := by
    rintro rfl
    cases known
  rw [ofJson, known, left, right]
  · rfl
  · exact notInputs
  · exact notConstant

theorem InRange.unary {tag : String} {op : Expr → Expr} {e : Expr} (known : unary? tag = some op)
    (inRange : e.InRange) : (op e).InRange := by
  unfold unary? at known
  split at known <;> cases known <;> exact inRange

theorem InRange.binary {tag : String} {op : Expr → Expr → Expr} {l r : Expr}
    (known : binary? tag = some op) (left : l.InRange) (right : r.InRange) : (op l r).InRange := by
  unfold binary? at known
  split at known <;> cases known <;> exact ⟨left, right⟩

theorem inRange_of_literal? {tag : String} {e : Expr} (known : literal? tag = some e) :
    e.InRange := by
  unfold literal? at known
  split at known <;> cases known <;> trivial

theorem ofJson_toJson {e : Expr} (inRange : e.InRange) : ofJson unit e.toJson = .ok e := by
  induction e with
  | inputs positions =>
    rw [toJson, ofJson, Decode.inverts_index.list.read positions inRange]
    rfl
  | constant mask =>
    rw [toJson, ofJson, Mask.inverts_codec.read mask inRange]
    rfl
  | literal value => cases value <;> rfl
  | not e ih => exact ofJson_unary rfl (ih inRange)
  | reduce op e ih => exact ofJson_unary (unary?_reduce op) (ih inRange)
  | logicNot e ih => exact ofJson_unary rfl (ih inRange)
  | bitwise op l r ihl ihr =>
    exact ofJson_binary (binary?_bitwise op) (ihl inRange.1) (ihr inRange.2)
  | compare negated l r ihl ihr =>
    cases negated with
    | false => exact ofJson_binary rfl (ihl inRange.1) (ihr inRange.2)
    | true => exact ofJson_binary rfl (ihl inRange.1) (ihr inRange.2)
  | logic op l r ihl ihr => exact ofJson_binary (binary?_logic op) (ihl inRange.1) (ihr inRange.2)

theorem inRange_of_ofJson {j : Json} {e : Expr} (decoded : ofJson unit j = .ok e) : e.InRange := by
  -- the cases that are not named refuse the value
  fun_induction ofJson unit j generalizing e with
  | case1 tag =>
    cases known : literal? tag with
    | none => simp [known] at decoded
    | some value =>
      rw [known] at decoded
      exact Except.ok.inj decoded ▸ inRange_of_literal? known
  | case2 value =>
    obtain ⟨positions, read, decoded⟩ := bind_eq_ok.1 decoded
    cases decoded
    exact Decode.inverts_index.list.range _ _ read
  | case3 value =>
    obtain ⟨mask, read, decoded⟩ := bind_eq_ok.1 decoded
    cases decoded
    exact Mask.inverts_codec.range _ _ read
  | case4 tag l r extra _ _ op known ihl ihr =>
    obtain ⟨left, readLeft, decoded⟩ := bind_eq_ok.1 decoded
    obtain ⟨right, readRight, decoded⟩ := bind_eq_ok.1 decoded
    split at decoded
    · cases decoded
      exact (ihl readLeft).binary known (ihr readRight)
    · cases decoded
  | case6 tag l _ _ op known ih =>
    obtain ⟨_, -, decoded⟩ := bind_eq_ok.1 decoded
    cases decoded
  | case8 tag value _ _ _ _ op known ih =>
    obtain ⟨operand, read, decoded⟩ := bind_eq_ok.1 decoded
    cases decoded
    exact (ih read).unary known
  | case9 tag value _ _ _ _ e known =>
    cases decoded
    exact inRange_of_literal? known
  | _ => cases decoded

end Expr

def Position.InRange (p : Position) : Prop := p.line < UInt32.size

theorem Position.inverts_codec : Decode.Inverts ofJson toJson InRange where
  read p inRange := by
    have fields : Decode.record ["filename", "line"] p.toJson =
        .ok [("filename", .string p.file), ("line", .nat p.line)] :=
      Decode.record_object (by simp) (by simp)
    rw [ofJson, fields]
    simp [bind, Except.bind, pure, Except.pure, Decode.string,
      Decode.inverts_id.read p.line inRange]
  range j p decoded := by
    obtain ⟨fields, -, decoded⟩ := bind_eq_ok.1 decoded
    obtain ⟨file, -, decoded⟩ := bind_eq_ok.1 decoded
    obtain ⟨line, read, decoded⟩ := bind_eq_ok.1 decoded
    obtain ⟨_, number⟩ := Decode.exists_of_field read
    cases decoded
    exact Decode.inverts_id.range _ _ number

/-- Output bits are positions of 64 bits, all other destinations are numbers of 32 bits. -/
def Destination.InRange : Destination → Prop
  | output bit => bit < UInt64.size
  | conditionalOutput bit | control bit => bit < UInt32.size

theorem Destination.inverts_codec : Decode.Inverts ofJson toJson InRange where
  read d inRange := by
    cases d with
    | output bit => simp [toJson, ofJson, Decode.inverts_index.read bit inRange, bind, Except.bind,
        pure, Except.pure]
    | conditionalOutput bit | control bit =>
      simp [toJson, ofJson, Decode.inverts_id.read bit inRange, bind, Except.bind, pure,
        Except.pure]
  range j d decoded := by
    unfold ofJson at decoded
    split at decoded
    · obtain ⟨bit, read, decoded⟩ := bind_eq_ok.1 decoded
      cases decoded
      exact Decode.inverts_index.range _ _ read
    · obtain ⟨bit, read, decoded⟩ := bind_eq_ok.1 decoded
      cases decoded
      exact Decode.inverts_id.range _ _ read
    · obtain ⟨bit, read, decoded⟩ := bind_eq_ok.1 decoded
      cases decoded
      exact Decode.inverts_id.range _ _ read
    · cases decoded

namespace Event

/-- Every number in the event has room in its kind; states have 32 bits. -/
def InRange : Event → Prop
  | split condition place => condition.InRange ∧ ∀ p ∈ place, p.InRange
  | assign destination _ => destination.InRange
  | setTarget state => ∀ s ∈ state, s < UInt32.size
  | splitState state place => state < UInt32.size ∧ ∀ p ∈ place, p.InRange
  | openDefault place => ∀ p ∈ place, p.InRange
  | visit _ | join | enterSwitch _ | leaveSwitch => True

theorem inverts_place : Decode.Inverts (Decode.option Position.ofJson)
    (optional Position.toJson) fun place => ∀ p ∈ place, p.InRange :=
  Position.inverts_codec.option fun p same => by cases same

theorem inverts_state : Decode.Inverts (Decode.option Decode.id) (optional .nat)
    fun state => ∀ s ∈ state, s < UInt32.size :=
  Decode.inverts_id.option fun s same => by cases same

theorem inRange_of_placeOf {fields : List (String × Json)} {place : Option Position}
    (decoded : placeOf fields = .ok place) : ∀ p ∈ place, p.InRange := by
  rcases Decode.exists_of_fieldOr decoded with rfl | ⟨j, read⟩
  · intro p member
    cases member
  · exact inverts_place.range j place read

theorem ofJson_object {op : String} {fields : List (String × Json)}
    (plain : ∀ f ∈ fields, f.1 ≠ "op") :
    ofJson (.object (("op", .string op) :: fields)) = ofFields op (.object fields) := by
  have named : fields.filter (fun f => f.1 == "op") = [] :=
    List.filter_eq_nil_iff.2 fun f member same => plain f member (beq_iff_eq.1 same)
  have others : fields.filter (fun f => f.1 != "op") = fields :=
    List.filter_eq_self.2 fun f member => bne_iff_ne.2 (plain f member)
  simp [ofJson, named, others]

theorem ofJson_toJson {e : Event} (inRange : e.InRange) : ofJson e.toJson = .ok e := by
  cases e with
  | split condition place =>
    have read : Expr.ofJson isUnit condition.toJson = .ok condition :=
      Expr.ofJson_toJson inRange.1
    have placed := inverts_place.read place inRange.2
    have probed : ∀ f ∈ [("cond", condition.toJson), ("pos", optional Position.toJson place)],
        probeSplit f.1 f.2 = .ok () := by
      simp only [List.forall_mem_cons, probeSplit, read, placed]
      exact ⟨rfl, rfl, fun f member => absurd member List.not_mem_nil⟩
    rw [toJson, ofJson_object (by simp), ofFields,
      Decode.probedRecord_object (by simp) (by simp) probed]
    simp [bind, Except.bind, pure, Except.pure, placeOf, read, placed]
  | visit yes =>
    rw [toJson, ofJson_object (by simp), ofFields, Decode.record_object (by simp) (by simp)]
    simp [bind, Except.bind, pure, Except.pure, Decode.bool]
  | assign destination value =>
    rw [toJson, ofJson_object (by simp), ofFields, Decode.record_object (by simp) (by simp)]
    simp [bind, Except.bind, pure, Except.pure, Decode.bool,
      Destination.inverts_codec.read destination inRange]
  | setTarget state =>
    rw [toJson, ofJson_object (by simp), ofFields, Decode.record_object (by simp) (by simp)]
    simp [bind, Except.bind, pure, Except.pure, inverts_state.read state inRange]
  | splitState state place =>
    rw [toJson, ofJson_object (by simp), ofFields, Decode.record_object (by simp) (by simp)]
    simp [bind, Except.bind, pure, Except.pure, placeOf,
      Decode.inverts_id.read state inRange.1, inverts_place.read place inRange.2]
  | openDefault place =>
    rw [toJson, ofJson_object (by simp), ofFields, Decode.record_object (by simp) (by simp)]
    simp [bind, Except.bind, pure, Except.pure, placeOf, inverts_place.read place inRange]
  | join | enterSwitch | leaveSwitch => rfl

theorem inRange_of_ofFields {op : String} {j : Json} {e : Event}
    (decoded : ofFields op j = .ok e) : e.InRange := by
  unfold ofFields at decoded
  split at decoded
  · obtain ⟨fields, -, decoded⟩ := bind_eq_ok.1 decoded
    obtain ⟨condition, read, decoded⟩ := bind_eq_ok.1 decoded
    obtain ⟨place, placed, decoded⟩ := bind_eq_ok.1 decoded
    obtain ⟨_, read⟩ := Decode.exists_of_field read
    cases decoded
    exact ⟨Expr.inRange_of_ofJson read, inRange_of_placeOf placed⟩
  · obtain ⟨fields, -, decoded⟩ := bind_eq_ok.1 decoded
    obtain ⟨yes, -, decoded⟩ := bind_eq_ok.1 decoded
    cases decoded
    trivial
  · obtain ⟨fields, -, decoded⟩ := bind_eq_ok.1 decoded
    cases decoded
    trivial
  · obtain ⟨fields, -, decoded⟩ := bind_eq_ok.1 decoded
    obtain ⟨destination, read, decoded⟩ := bind_eq_ok.1 decoded
    obtain ⟨value, -, decoded⟩ := bind_eq_ok.1 decoded
    obtain ⟨_, read⟩ := Decode.exists_of_field read
    cases decoded
    exact Destination.inverts_codec.range _ _ read
  · obtain ⟨fields, -, decoded⟩ := bind_eq_ok.1 decoded
    obtain ⟨state, read, decoded⟩ := bind_eq_ok.1 decoded
    cases decoded
    rcases Decode.exists_of_fieldOr read with rfl | ⟨_, read⟩
    · intro s member
      cases member
    · exact inverts_state.range _ _ read
  · obtain ⟨fields, -, decoded⟩ := bind_eq_ok.1 decoded
    obtain ⟨state, read, decoded⟩ := bind_eq_ok.1 decoded
    obtain ⟨place, placed, decoded⟩ := bind_eq_ok.1 decoded
    obtain ⟨_, read⟩ := Decode.exists_of_field read
    cases decoded
    exact ⟨Decode.inverts_id.range _ _ read, inRange_of_placeOf placed⟩
  · obtain ⟨fields, -, decoded⟩ := bind_eq_ok.1 decoded
    obtain ⟨place, placed, decoded⟩ := bind_eq_ok.1 decoded
    cases decoded
    exact inRange_of_placeOf placed
  · obtain ⟨fields, -, decoded⟩ := bind_eq_ok.1 decoded
    obtain ⟨name, -, decoded⟩ := bind_eq_ok.1 decoded
    cases decoded
    trivial
  · obtain ⟨fields, -, decoded⟩ := bind_eq_ok.1 decoded
    cases decoded
    trivial
  · cases decoded

theorem inRange_of_ofJson {j : Json} {e : Event} (decoded : ofJson j = .ok e) : e.InRange := by
  unfold ofJson at decoded
  split at decoded
  · exact inRange_of_ofFields decoded
  · split at decoded
    · exact inRange_of_ofFields decoded
    · cases decoded
  · cases decoded

theorem inverts_codec : Decode.Inverts ofJson toJson InRange :=
  ⟨fun _ => ofJson_toJson, fun _ _ => inRange_of_ofJson⟩

end Event

namespace Design

def InRange (d : Design) : Prop := ∀ e ∈ d.events, e.InRange

theorem inRange_of_ofJson {j : Json} {d : Design} (decoded : ofJson j = .ok d) : d.InRange := by
  obtain ⟨fields, -, decoded⟩ := bind_eq_ok.1 decoded
  obtain ⟨module, -, decoded⟩ := bind_eq_ok.1 decoded
  obtain ⟨events, read, decoded⟩ := bind_eq_ok.1 decoded
  obtain ⟨_, read⟩ := Decode.exists_of_field read
  cases decoded
  exact Event.inverts_codec.list.range _ _ read

/-- Decoding what a design is written as gives back the same design, exactly when its numbers have
room in their kinds. -/
theorem ofJson_toJson_iff (d : Design) : ofJson d.toJson = .ok d ↔ d.InRange := by
  constructor
  · exact inRange_of_ofJson
  · intro inRange
    have events := Event.inverts_codec.list.read d.events inRange
    rw [toJson, ofJson, Decode.record_object (by simp [fieldNames]) (by simp)]
    simp [bind, Except.bind, pure, Except.pure, Decode.string, events]

end Design

end FsmFabric
