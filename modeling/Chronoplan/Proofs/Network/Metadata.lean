import Chronoplan.Proofs.Network.Requests

/-!
# Data of intervals

Data for an interval come with the interval or by themselves, and later data are laid over earlier
ones. They lead a life of their own: whatever data are given, the points, the bounds and the flag
are those of the same requests without any, and reading an interval gives back what was given for
its name, the latest value of each key. Two keys are refused, wherever they stand.
-/

set_option autoImplicit false

namespace Chronoplan

/-- The mapping of named data. -/
def Metadata.toValue (data : Metadata) : Value := .dict (data.map fun e => (.str e.1, e.2))

namespace Metadata

/-- The keys that no data can have. -/
def isReserved (key : String) : Bool := key == "self" || key == "interval_id"

/-- No key is one of those that are refused. -/
def IsFree (data : Metadata) : Prop := ∀ e ∈ data, isReserved e.1 = false

instance (data : Metadata) : Decidable data.IsFree :=
  inferInstanceAs (Decidable (∀ e ∈ data, isReserved e.1 = false))

theorem toMetadata_toValue (data : Metadata) :
    data.toValue.toMetadata = if data.IsFree then .ok data else .error .illTyped := by
  refine (mapM_eq_ite _ (fun e => isReserved e.1.text = false) (fun e => (e.1.text, e.2)) .illTyped
    _ fun e he => ?_).trans ?_
  · obtain ⟨⟨key, v⟩, -, rfl⟩ := List.mem_map.mp he
    by_cases reserved : key = "self" ∨ key = "interval_id" <;>
      simp [Value.text, isReserved, reserved, ← not_or]
  · simp only [List.forall_mem_map, List.map_map, Value.text, Function.comp_def, List.map_id']
    exact if_congr Iff.rfl rfl rfl

theorem truthy_toValue (data : Metadata) : data.toValue.truthy = !data.isEmpty := by
  cases data <;> rfl

end Metadata

/-- A request that brings data: an interval with them, or data for an interval. -/
inductive Memo
  | interval (spec : IntervalSpec) (data : Metadata)
  | update (id : String) (data : Metadata)

namespace Memo

/-- The interval that the data are for. -/
def subject : Memo → String
  | .interval spec _ => spec.id
  | .update id _ => id

def data : Memo → Metadata
  | .interval _ data => data
  | .update _ data => data

/-- The same request without data. -/
def bare : Memo → Memo
  | .interval spec _ => .interval spec []
  | .update id _ => .update id []

def apply : Memo → Network → Except Fault Network
  | .interval spec data, n => n.addInterval { spec with metadata := data.toValue }
  | .update id data, n => do return n.withMetadata id (← data.toValue.toMetadata)

/-- The data of all intervals after a request. -/
def lay (memo : Memo) (t : Table String Metadata) : Table String Metadata :=
  match memo with
  | .interval _ [] => t
  | _ => t.insert sameText memo.subject
    (((t.find? sameText memo.subject).getD []).insertAll sameText memo.data)

end Memo

namespace Network

/-- The network after several requests, unless one of them is refused. -/
def record (memos : List Memo) (n : Network) : Except Fault Network :=
  memos.foldlM (fun n memo => memo.apply n) n

/-- The network with other data. -/
def carrying (n : Network) (t : Table String Metadata) : Network := { n with metadata := t }

/-! ### One request -/

section

variable {α : Type} {t : Table String Metadata}

theorem bind_map_congr (x : Except Fault α) {f g : α → Except Fault Network}
    (same : ∀ a, f a = (g a).map (carrying · t)) :
    (x >>= f) = (x >>= g).map (carrying · t) := by
  cases x with
  | error e => rfl
  | ok a => exact same a

theorem bind_carrying {x' x : Except Fault Network} {f g : Network → Except Fault Network}
    (first : x' = x.map (carrying · t))
    (same : ∀ n, f (n.carrying t) = (g n).map (carrying · t)) :
    (x' >>= f) = (x >>= g).map (carrying · t) := by
  subst first
  cases x with
  | error e => rfl
  | ok n => exact same n

end

section

variable (n : Network) (t : Table String Metadata)

theorem addConstraint_carrying (a b : String) (lo hi : Value) :
    (n.carrying t).addConstraint a b lo hi = (n.addConstraint a b lo hi).map (carrying · t) := by
  unfold addConstraint
  cases Bound.ofValues lo hi <;> rfl

theorem anchor_carrying (p : String) (v : Value) :
    (n.carrying t).anchor p v = (n.anchor p v).map (carrying · t) := by
  unfold anchor
  split
  · rfl
  · exact n.addConstraint_carrying t originPoint p _ _

/-- An interval is entered before its data are looked at. -/
theorem addInterval_eq (spec : IntervalSpec) (v : Value) :
    n.addInterval { spec with metadata := v } =
      (n.addInterval { spec with metadata := Metadata.toValue [] } >>= fun m =>
        m.described { spec with metadata := v }) := by
  simp only [addInterval, bind_assoc]
  rfl

theorem addInterval_carrying (spec : IntervalSpec) :
    (n.carrying t).addInterval { spec with metadata := Metadata.toValue [] } =
      (n.addInterval { spec with metadata := Metadata.toValue [] }).map (carrying · t) := by
  unfold addInterval
  refine bind_map_congr (n.ticksOf spec.start) fun start => ?_
  refine bind_map_congr (n.ticksOf spec.finish) fun finish => ?_
  refine bind_map_congr (n.specDuration _ start finish) fun ⟨lo, hi⟩ => ?_
  refine bind_carrying (addConstraint_carrying ((n.addPoint _).addPoint _) t _ _ lo hi) fun m => ?_
  refine bind_carrying (m.anchor_carrying t _ start) fun m => ?_
  exact bind_carrying (m.anchor_carrying t _ finish) fun m => rfl

theorem readInterval_carrying (id : String) : (n.carrying t).readInterval id =
    (n.readInterval id).map fun i => { i with metadata := (t.find? sameText i.id).getD [] } := by
  unfold readInterval
  rw [show (n.carrying t).anchorOf = n.anchorOf from rfl,
    show (n.carrying t).shortest = n.shortest from rfl]
  cases n.anchorOf (startPoint id) (.int 0) with
  | error f => rfl
  | ok start =>
    cases n.shortest id with
    | error f => rfl
    | ok shortest =>
      dsimp only [ok_bind]
      cases addNumbers start shortest with
      | error f => rfl
      | ok earliest =>
        dsimp only [ok_bind]
        cases n.anchorOf (endPoint id) earliest <;> rfl

/-- Other data change nothing of the intervals but their data. -/
theorem intervals_carrying : (n.carrying t).intervals = n.intervals.map
    (List.map fun i => { i with metadata := (t.find? sameText i.id).getD [] }) := by
  unfold intervals
  rw [show (n.carrying t).intervalIds = n.intervalIds from rfl,
    show (n.carrying t).anchorOf = n.anchorOf from rfl]
  simp only [readInterval_carrying]
  generalize n.intervalIds.mapM (_ : String → Except Fault (Number × String)) = keyed
  cases keyed with
  | error f => rfl
  | ok keyed => exact mapM_map_result (fun e : Number × String => n.readInterval e.2) _ _

end

end Network

namespace Memo

variable (memo : Memo) (n : Network) (t : Table String Metadata)

/-- A request is made as without its data, which are refused or laid over those that are there. -/
theorem apply_carrying : memo.apply (n.carrying t) = memo.bare.apply n >>= fun m =>
    if memo.data.IsFree then .ok (m.carrying (memo.lay t)) else .error .illTyped := by
  cases memo with
  | interval spec data =>
    dsimp only [apply, bare]
    rw [Network.addInterval_eq, Network.addInterval_carrying]
    simp only [Network.described, Metadata.truthy_toValue, Metadata.toMetadata_toValue]
    cases n.addInterval { spec with metadata := Metadata.toValue [] } with
    | error f => rfl
    | ok m =>
      cases data with
      | nil => rfl
      | cons e data =>
        by_cases free : Metadata.IsFree (e :: data) <;> simp only [free, Memo.data] <;> rfl
  | update id data =>
    dsimp only [apply, bare]
    rw [Metadata.toMetadata_toValue]
    by_cases free : data.IsFree <;> simp only [free, Memo.data] <;> rfl

/-- The data that several requests bring for an interval, in their order. -/
def collected (id : String) (memos : List Memo) : Metadata :=
  (memos.filter fun memo => memo.subject == id).flatMap data

def layAll (memos : List Memo) (t : Table String Metadata) : Table String Metadata :=
  memos.foldl (fun t memo => memo.lay t) t

theorem find?_lay (id : String) : ((memo.lay t).find? sameText id).getD [] =
    ((t.find? sameText id).getD []).insertAll sameText (collected id [memo]) := by
  have laid : ((t.insert sameText memo.subject (((t.find? sameText memo.subject).getD []).insertAll
      sameText memo.data)).find? sameText id).getD [] =
      ((t.find? sameText id).getD []).insertAll sameText (collected id [memo]) := by
    rw [sameText_find?_insert]
    by_cases here : memo.subject = id
    · simp [collected, here]
    · simp [collected, here, Table.insertAll]
  cases memo with
  | update id data => exact laid
  | interval spec data =>
    cases data with
    | cons e data => exact laid
    | nil =>
      by_cases here : spec.id = id <;> simp [lay, collected, subject, data, here, Table.insertAll]

theorem find?_layAll (memos : List Memo) (id : String) :
    ((layAll memos t).find? sameText id).getD [] =
      ((t.find? sameText id).getD []).insertAll sameText (collected id memos) := by
  induction memos generalizing t with
  | nil => rfl
  | cons memo memos ih =>
    have split : collected id (memo :: memos) = collected id [memo] ++ collected id memos := by
      simp only [collected, ← List.flatMap_append, ← List.filter_append, List.singleton_append]
    refine (ih (memo.lay t)).trans ?_
    rw [find?_lay, split, Table.insertAll, Table.insertAll, Table.insertAll, List.foldl_append]

end Memo

namespace Network

/-- Several requests are accepted when they are without their data and no key of these is refused,
and their data are laid over each other. -/
theorem record_carrying (memos : List Memo) (n m : Network) (t : Table String Metadata) :
    (n.carrying t).record memos = .ok m ↔ (∀ memo ∈ memos, memo.data.IsFree) ∧
      ∃ b, n.record (memos.map Memo.bare) = .ok b ∧ m = b.carrying (Memo.layAll memos t) := by
  induction memos generalizing n t with
  | nil => simp [record, Memo.layAll, eq_comm]
  | cons memo memos ih =>
    have step (k : Network) (rest : List Memo) (first : Memo) :
        k.record (first :: rest) = first.apply k >>= fun k => k.record rest := List.foldlM_cons ..
    simp only [List.map_cons, step, bind_eq_ok_iff, List.forall_mem_cons, memo.apply_carrying n t]
    constructor
    · rintro ⟨k, ⟨b, made, laid⟩, later⟩
      by_cases free : memo.data.IsFree
      · rw [if_pos free] at laid
        cases laid
        obtain ⟨rest, c, made', rfl⟩ := (ih b (memo.lay t)).mp later
        exact ⟨⟨free, rest⟩, c, ⟨b, made, made'⟩, rfl⟩
      · rw [if_neg free] at laid
        cases laid
    · rintro ⟨⟨free, rest⟩, c, ⟨b, made, made'⟩, rfl⟩
      exact ⟨b.carrying (memo.lay t), ⟨b, made, if_pos free⟩,
        (ih b (memo.lay t)).mpr ⟨rest, c, made', rfl⟩⟩

/-- The data that are stored for an interval. -/
def dataOf (n : Network) (id : String) : Metadata := (n.metadata.find? sameText id).getD []

/-- Requests with data are accepted when they are without, unless a key is reserved. They leave
the points, the bounds and the flag that they leave without data. For each name they store what
was given for it, the latest value of each key, over what was there before, and this is what is
read back with the interval. -/
theorem record_data (memos : List Memo) (n : Network) :
    ((∃ m, n.record memos = .ok m) ↔
      (∃ b, n.record (memos.map Memo.bare) = .ok b) ∧ ∀ memo ∈ memos, memo.data.IsFree) ∧
    ∀ m b, n.record memos = .ok m → n.record (memos.map Memo.bare) = .ok b →
      m.points = b.points ∧ m.constraints = b.constraints ∧ m.consistent = b.consistent ∧
      (∀ id key, (m.dataOf id).find? sameText key =
        ((Memo.collected id memos).last? sameText key).or ((n.dataOf id).find? sameText key)) ∧
      m.intervals = b.intervals.map (List.map fun i => { i with metadata := m.dataOf i.id }) := by
  have recorded (m : Network) := record_carrying memos n m n.metadata
  constructor
  · constructor
    · rintro ⟨m, hm⟩
      obtain ⟨free, b, hb, -⟩ := (recorded m).mp hm
      exact ⟨⟨b, hb⟩, free⟩
    · rintro ⟨⟨b, hb⟩, free⟩
      exact ⟨_, (recorded _).mpr ⟨free, b, hb, rfl⟩⟩
  · intro m b hm hb
    obtain ⟨-, b', hb', rfl⟩ := (recorded m).mp hm
    cases hb.symm.trans hb'
    refine ⟨rfl, rfl, rfl, fun id key => ?_, b.intervals_carrying _⟩
    have stored : (b.carrying (Memo.layAll memos n.metadata)).dataOf id =
        (n.dataOf id).insertAll sameText (Memo.collected id memos) :=
      Memo.find?_layAll n.metadata memos id
    rw [stored]
    exact find?_insertAll key (Memo.collected id memos) (n.dataOf id)

end Network

/-! ### A museum -/

namespace Museum

def tour (start : ℤ) : IntervalSpec :=
  { id := "tour", duration := .int 2, start := .int start, finish := .null, metadata := .null }

def talk : IntervalSpec :=
  { id := "talk", duration := .int 1, start := .int 8, finish := .null, metadata := .null }

def day : List Memo :=
  [.interval (tour 10) [("room", .str "north"), ("seats", .int 20)],
    .update "talk" [("room", .str "hall")], .interval talk [],
    .update "tour" [("room", .str "south")]]

/-- A tour moves to another room and keeps its seats, and the talk keeps its own room. -/
theorem tour_moved : ∃ m is, Network.standard.record day = .ok m ∧ m.intervals = .ok is ∧
    is.map Interval.id = ["talk", "tour"] ∧
    (m.dataOf "tour").find? sameText "room" = some (.str "south") ∧
    (m.dataOf "tour").find? sameText "seats" = some (.int 20) ∧
    (m.dataOf "talk").find? sameText "room" = some (.str "hall") ∧
    ∀ i ∈ is, i.metadata = m.dataOf i.id := by
  obtain ⟨accepted, told⟩ := Network.standard.record_data day
  have read : (do
      let b ← Network.standard.record (day.map Memo.bare)
      b.intervals : Except Fault (List Interval)).toOption.map (List.map Interval.id) =
      some ["talk", "tour"] := by decide +kernel
  obtain ⟨is, his, ids⟩ := Option.map_eq_some_iff.mp read
  obtain ⟨b, hb, hb'⟩ := (bind_eq_ok_iff _ _ _).mp (toOption_eq_some_iff.mp his)
  obtain ⟨m, hm⟩ := accepted.mpr ⟨⟨b, hb⟩, by decide⟩
  obtain ⟨-, -, -, data, intervals⟩ := told m b hm hb
  rw [hb'] at intervals
  refine ⟨m, _, hm, intervals, ?_, data _ _, data _ _, data _ _, ?_⟩
  · rw [List.map_map]
    exact ids
  · intro i hi
    obtain ⟨j, -, rfl⟩ := List.mem_map.mp hi
    rfl

/-- The data of a tour cannot have a key that is reserved, though they are named data as others are
and the tour alone is accepted. -/
theorem tour_refused :
    (∃ m, Network.standard.record [.interval (tour 10) [], .update "tour" []] = .ok m) ∧
    Network.standard.record [.interval (tour 10) [("interval_id", .str "T1")]] =
      .error .illTyped ∧
    Network.standard.record [.interval (tour 10) [], .update "tour" [("interval_id", .str "T1")]] =
      .error .illTyped ∧
    Network.standard.record [.interval (tour 10) [("self", .str "T1")]] = .error .illTyped ∧
    Network.standard.record [.interval (tour 10) [], .update "tour" [("self", .str "T1")]] =
      .error .illTyped :=
  ⟨⟨_, rfl⟩, rfl, rfl, rfl, rfl⟩

end Museum

end Chronoplan
