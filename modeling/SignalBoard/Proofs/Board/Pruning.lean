import SignalBoard.Circuit.CycleRun
import SignalBoard.Proofs.Board.Driven

/-!
# Running the live part alone

A board is run cycle by cycle without what is not live. Leaving out nodes never matters: a live node
only reads from a node that is not live if no outside input drives that one, and then it reads zero
either way. Leaving out wires does matter where several of them lead into one port. If the last one
is not live it is what the whole board reads, a zero, but without it an earlier one comes to light.

* `Board.Unshadowed`: no port is like that.
* `ReadsAlike.agree`, `outputs_eq_of_readsAlike`: the live part runs like every board that has the
  same nodes and whose ports read the same live wires, and gives its outputs.
* `runCycles_outputValues`: so it gives those of the board without the wires that hide live ones,
  and those of the board itself if it is unshadowed.
* `runCycles_shadowed`: a board with two wires into its output on which the two differ.
-/

namespace SignalBoard

open Evaluator

namespace CycleRecord

/-- A run notes the answers of its evaluator one after the other. -/
theorem outputValues_foldl (analysis : Analysis) (wires : List Wire)
    (sequence : List (List Binary64)) (run : Run) :
    (sequence.foldl (Run.cycle analysis wires) run).outputValues
      = run.outputValues ++ run.evaluator.answers sequence := by
  induction sequence generalizing run with
  | nil => rw [List.foldl_nil, answers, List.append_nil]
  | cons inputs rest ih =>
    rw [List.foldl_cons, ih, answers]
    show run.outputValues ++ [(run.evaluator.evaluate inputs).1] ++ _ = _
    rw [List.append_assoc]
    rfl

end CycleRecord

namespace Board

variable {board : Board} {ports : PortCounts} {library : Library} {analysis : Analysis}

/-! ## What is hidden -/

/-- Whether a wire is not live and leads into a port that a live one leads into, too. -/
def hides (board : Board) (analysis : Analysis) (wire : Wire) : Bool :=
  !analysis.isLiveWire wire && board.wires.any fun other =>
    analysis.isLiveWire other && other.target.node = wire.target.node &&
      other.target.port = wire.target.port

/-- The board without the wires that hide live ones. -/
def uncovered (board : Board) (analysis : Analysis) : Board :=
  { board with wires := board.wires.filter fun wire => !board.hides analysis wire }

/-- No wire that a port reads hides a live one. -/
def Unshadowed (board : Board) (ports : PortCounts) (analysis : Analysis) : Prop :=
  ∀ wire ∈ board.wires, wire.target.port.toNat < board.portCount wire.target.node →
    board.feed? ports wire.target.node wire.target.port.toNat = some wire →
    board.hides analysis wire = false

instance (board : Board) (ports : PortCounts) (analysis : Analysis) :
    Decidable (board.Unshadowed ports analysis) :=
  inferInstanceAs (Decidable (∀ wire ∈ board.wires, _ → _ → _))

/-! ## The live part -/

/-- A live node is found in the live part as it is found in the board. -/
theorem get?_livePart {id : NodeId} (hlive : analysis.isLive id) :
    (board.livePart analysis).nodes.get? id = board.nodes.get? id := by
  rw [livePart, OrderedMap.get?_filter]
  cases board.nodes.get? id with
  | none => rfl
  | some node => rw [Option.filter_some, if_pos hlive]

/-- The outside ports take part in the live part whether they are live or not, since it is baked for
the same port counts. -/
theorem mem_ids_livePart {id : NodeId} :
    id ∈ (board.livePart analysis).nodes.ids ports ↔
      id ∈ board.nodes.ids ports ∧ (id.isConnectionPoint ∨ analysis.isLive id) := by
  -- the two boards differ in the keys of their nodes alone
  have hkeys : id ∈ (board.livePart analysis).nodes.keys ↔
      id ∈ board.nodes.keys ∧ analysis.isLive id := by
    rw [← OrderedMap.get?_isSome_iff, ← OrderedMap.get?_isSome_iff, livePart,
      OrderedMap.get?_filter]
    cases board.nodes.get? id <;> simp
  rw [NodeMap.mem_ids, NodeMap.mem_ids, hkeys]
  constructor
  · rintro (⟨n, hn, rfl⟩ | ⟨⟨hkey, hlive⟩, hordinary⟩ | ⟨n, hn, rfl⟩)
    · exact ⟨.inl ⟨n, hn, rfl⟩, .inl (NodeId.isConnectionPoint_input n)⟩
    · exact ⟨.inr (.inl ⟨hkey, hordinary⟩), .inr hlive⟩
    · exact ⟨.inr (.inr ⟨n, hn, rfl⟩), .inl (NodeId.isConnectionPoint_output n)⟩
  · rintro ⟨hinput | ⟨hkey, hordinary⟩ | houtput, hkept⟩
    · exact .inl hinput
    · exact .inr (.inl ⟨⟨hkey, hkept.resolve_left hordinary⟩, hordinary⟩)
    · exact .inr (.inr houtput)

/-- What is live takes part, also in the live part alone. -/
theorem mem_ids_livePart_of_isLive (h : board.analyse ports = .ok analysis) {id : NodeId}
    (hlive : analysis.isLive id) : id ∈ (board.livePart analysis).nodes.ids ports :=
  mem_ids_livePart.mpr ⟨((isLive_iff h).mp hlive).1, .inr hlive⟩

/-- The nodes that are left are still kept under their own ids. -/
theorem keyedById_livePart (analysis : Analysis) (hkeyed : board.nodes.KeyedById) :
    (board.livePart analysis).nodes.KeyedById :=
  fun entry hentry => hkeyed entry (List.mem_filter.mp hentry).1

/-- Fewer wires between fewer ids make no new loop. -/
theorem acyclic_of_subset (part : Board) (hacyclic : (board.digraph ports).Acyclic)
    (hids : ∀ id ∈ part.nodes.ids ports, id ∈ board.nodes.ids ports)
    (hwires : ∀ wire ∈ part.wires, wire ∈ board.wires) : (part.digraph ports).Acyclic := by
  refine hacyclic.mono fun u v huv => ?_
  rw [adjacent_iff] at huv ⊢
  obtain ⟨⟨wire, hwire, hends⟩, hu, hv⟩ := huv
  exact ⟨⟨wire, hwires wire hwire, hends⟩, hids u hu, hids v hv⟩

/-- The live part of a board without loops has none either, so that baking it cannot fail. -/
theorem acyclic_livePart (analysis : Analysis) (hacyclic : (board.digraph ports).Acyclic) :
    ((board.livePart analysis).digraph ports).Acyclic :=
  acyclic_of_subset (board.livePart analysis) hacyclic
    (fun _ hid => (mem_ids_livePart.mp hid).1) fun _ hwire => (List.mem_filter.mp hwire).1

/-- A port of the live part reads the last wire into it among those that are live. -/
theorem feed?_livePart (h : board.analyse ports = .ok analysis) (id : NodeId) (port : Nat) :
    (board.livePart analysis).feed? ports id port
      = ((board.wires.filter (board.feeds ports id port)).filter analysis.isLiveWire).getLast? := by
  have hfilter : (board.livePart analysis).wires.filter
      ((board.livePart analysis).feeds ports id port)
        = (board.wires.filter (board.feeds ports id port)).filter analysis.isLiveWire := by
    show (board.wires.filter analysis.isLiveWire).filter _ = _
    rw [List.filter_filter, List.filter_filter]
    -- whether a wire leads into the port differs only by which ids take part, and both ends of a
    -- live wire do in either board
    refine List.filter_congr fun wire _ => ?_
    cases hlive : analysis.isLiveWire wire with
    | false => simp
    | true =>
      have hends : analysis.isLive wire.source.node ∧ analysis.isLive wire.target.node := by
        simpa [Analysis.isLiveWire] using hlive
      have hsource := mem_ids_livePart_of_isLive h hends.1
      have htarget := mem_ids_livePart_of_isLive h hends.2
      simp [feeds, hsource, htarget, (mem_ids_livePart.mp hsource).1,
        (mem_ids_livePart.mp htarget).1]
  rw [feed?, hfilter]

/-! ## Boards that read alike -/

/-- A board with the same nodes, no new wires, and ports that read the same live wires; where the
live part reads nothing, the wire that is read is not live. -/
structure ReadsAlike (board : Board) (ports : PortCounts) (analysis : Analysis) (whole : Board) :
    Prop where
  nodes : whole.nodes = board.nodes
  wires : ∀ wire ∈ whole.wires, wire ∈ board.wires
  live : ∀ id port wire, port < board.portCount id →
    (board.livePart analysis).feed? ports id port = some wire →
    whole.feed? ports id port = some wire
  dead : ∀ id port wire, port < board.portCount id →
    (board.livePart analysis).feed? ports id port = none →
    whole.feed? ports id port = some wire → analysis.isLiveWire wire = false

/-- What is driven where wires have been left out is driven on the whole board. -/
theorem ReadsAlike.driven {whole : Board} (h : board.ReadsAlike ports analysis whole) {id : NodeId}
    (hdriven : whole.Driven ports id) : board.Driven ports id := by
  -- by induction on how the id is driven: the wires are among those of the board, and the ports of
  -- an id depend on its node alone
  induction hdriven with
  | input n hn => exact .input n hn
  | wire w id hwire _ htarget hid hport ih =>
    refine .wire w id (h.wires w hwire) ih htarget (by rwa [h.nodes] at hid) ?_
    rw [portCount, h.nodes] at hport
    exact hport

/-- A wire that is not live into a port that the live part reads comes from where nothing drives. -/
theorem not_driven_of_not_isLiveWire (h : board.analyse ports = .ok analysis) {wire : Wire}
    (hwire : wire ∈ board.wires) (hid : wire.target.node ∈ (board.livePart analysis).nodes.ids ports)
    (hport : wire.target.port.toNat < board.portCount wire.target.node)
    (hdead : analysis.isLiveWire wire = false) : ¬ board.Driven ports wire.source.node := by
  intro hsource
  obtain ⟨htarget, hkept⟩ := mem_ids_livePart.mp hid
  have hdriven : board.Driven ports wire.target.node :=
    .wire wire _ hwire hsource rfl htarget hport
  -- of the connection points only an outside output has a port to read
  have hlive : analysis.isLive wire.target.node := by
    rcases hkept with hcp | hlive
    · rcases NodeMap.mem_ids.mp htarget with ⟨n, -, heq⟩ | ⟨-, hordinary⟩ | ⟨n, hn, heq⟩
      · rw [heq, portCount_input] at hport
        omega
      · exact absurd hcp hordinary
      · rw [heq] at hdriven ⊢
        exact hdriven.reached.isLive_output h hn
    · exact hlive
  have hsourcelive := hsource.reached.isLive_left h (adjacent_of_wire hwire hsource.mem_ids htarget)
    (.inl hlive)
  rw [Analysis.isLiveWire, hsourcelive, hlive] at hdead
  exact absurd hdead (by decide)

/-- The ports of the live part read the same in the two runs. -/
theorem ReadsAlike.feeds {whole : Board} (h : board.ReadsAlike ports analysis whole)
    (hanalysis : board.analyse ports = .ok analysis) (hacyclic : (whole.digraph ports).Acyclic)
    {e : Evaluator} (hrun : whole.RunBy ports library e) (past : List (List Binary64))
    (inputs : List Binary64) (values : NodeId → List Binary64) {id : NodeId} {port : Nat}
    (hid : id ∈ (board.livePart analysis).nodes.ids ports)
    (hport : port < (board.livePart analysis).portCount id) :
    (∃ origin, (board.livePart analysis).origin? ports id port = some origin ∧
      whole.origin? ports id port = some origin ∧
      origin.1 ∈ (board.livePart analysis).nodes.ids ports) ∨
    ((board.livePart analysis).portIn ports values id port = .zero ∧
      whole.portIn ports ((e.after past).evaluate inputs).2.portsOf id port = .zero) := by
  -- the live part has no fewer ports on the ids that take part in it
  have hport' : port < board.portCount id := by
    rcases (mem_ids_livePart.mp hid).2 with hcp | hlive
    · obtain ⟨cp, hcp⟩ := Option.isSome_iff_exists.mp hcp
      rw [portCount, hcp] at hport ⊢
      cases cp <;> exact hport
    · rwa [portCount, get?_livePart hlive] at hport
  cases hfeed : (board.livePart analysis).feed? ports id port with
  | some wire =>
    refine .inl ⟨(wire.source.node, wire.source.port), ?_, ?_, (mem_of_feed? hfeed).2.1⟩
    · rw [origin?, hfeed, Option.map_some]
    · rw [origin?, h.live id port wire hport' hfeed, Option.map_some]
  | none =>
    refine .inr ⟨portIn_of_feed?_none hfeed, ?_⟩
    cases hwhole : whole.feed? ports id port with
    | none => exact portIn_of_feed?_none hwhole
    | some wire =>
      obtain ⟨hmem, hsource, -, rfl, rfl⟩ := mem_of_feed? hwhole
      -- the whole board reads a wire where the live part reads none, but nothing drives its source
      have hsilent := not_driven_of_not_isLiveWire hanalysis (h.wires wire hmem) hid hport'
        (h.dead _ _ wire hport' hfeed hwhole)
      rw [portIn_of_feed? hwhole]
      exact (hrun.silent hacyclic past inputs hsource fun hd => hsilent (h.driven hd)).valueAt _

/-- **The live part runs like every board that reads alike.** Cycle by cycle its ids keep the same
and have the same on their ports. -/
theorem ReadsAlike.agree {whole : Board} (h : board.ReadsAlike ports analysis whole)
    (hanalysis : board.analyse ports = .ok analysis)
    (hacyclic : ((board.livePart analysis).digraph ports).Acyclic)
    (hacyclic' : (whole.digraph ports).Acyclic) {e e' : Evaluator}
    (hrun : (board.livePart analysis).RunBy ports library e)
    (hrun' : whole.RunBy ports library e') (past : List (List Binary64)) :
    (∀ id ∈ (board.livePart analysis).nodes.ids ports, ¬ id.isConnectionPoint →
      (e.after past).holdingOf id = (e'.after past).holdingOf id) ∧
    ∀ inputs, ∀ id ∈ (board.livePart analysis).nodes.ids ports,
      ((e.after past).evaluate inputs).2.portsOf id
        = ((e'.after past).evaluate inputs).2.portsOf id := by
  let part := board.livePart analysis
  have hpoints : ∀ id, id ∈ part.nodes.ids ports → id.isConnectionPoint →
      id ∈ whole.nodes.ids ports := by
    intro id hid _
    rw [h.nodes]
    exact (mem_ids_livePart.mp hid).1
  have hnodes : ∀ id, id ∈ part.nodes.ids ports → ¬ id.isConnectionPoint →
      part.nodes.get? id = whole.nodes.get? id := by
    intro id hid hordinary
    rw [h.nodes]
    exact get?_livePart ((mem_ids_livePart.mp hid).2.resolve_left hordinary)
  -- the ids of the live part are closed under reading, up to zeros that are read on both sides
  exact hrun.agree hrun' hacyclic (C := fun id => id ∈ part.nodes.ids ports)
    (fun _ hid => hid) hpoints hnodes
    (fun past inputs id port hid hport => h.feeds hanalysis hacyclic' hrun' past inputs _ hid hport)
    past

/-- The live part gives the outputs of every board that reads alike. -/
theorem outputs_eq_of_readsAlike {whole : Board} (h : board.ReadsAlike ports analysis whole)
    (hanalysis : board.analyse ports = .ok analysis)
    (hacyclic : ((board.livePart analysis).digraph ports).Acyclic)
    (hacyclic' : (whole.digraph ports).Acyclic) {e e' : Evaluator}
    (hrun : (board.livePart analysis).RunBy ports library e)
    (hrun' : whole.RunBy ports library e') (sequence : List (List Binary64)) :
    e.answers sequence = e'.answers sequence := by
  refine answers_eq (fun past inputs => ?_) sequence
  have hcycle := hrun.cycle past inputs
  have hcycle' := hrun'.cycle past inputs
  -- the outside outputs belong to the live part, so they read the same as well
  rw [hcycle.results, hcycle'.results]
  refine List.map_congr_left fun n hn => ?_
  obtain ⟨w, hw, heq, -⟩ := exists_word_lt (List.mem_range.mp hn)
  have hout : NodeId.output w ∈ (board.livePart analysis).nodes.ids ports :=
    NodeMap.output_mem_ids.mpr hw
  have hvalues := (h.agree hanalysis hacyclic hacyclic' hrun hrun' past).2 inputs _ hout
  rw [hcycle.output w hw, hcycle'.output w hw] at hvalues
  rw [heq]
  exact List.singleton_inj.mp hvalues

/-! ## Which boards read alike -/

/-- A wire that is last among some and passes a test is last among those that pass it. -/
theorem getLast?_filter_of_pass {wires : List Wire} {p : Wire → Bool} {wire : Wire}
    (h : wires.getLast? = some wire) (hp : p wire = true) :
    (wires.filter p).getLast? = some wire := by
  obtain ⟨front, rfl⟩ := List.getLast?_eq_some_iff.mp h
  rw [List.filter_append, List.filter_cons_of_pos hp, List.filter_nil, List.getLast?_concat]

/-- Of wires into one port none hides another unless a live one is among them. -/
theorem hides_of_feeds {id : NodeId} {port : Nat} {wire other : Wire}
    (hwire : board.feeds ports id port wire = true)
    (hother : other ∈ board.wires) (hfeeds : board.feeds ports id port other = true)
    (hlive : analysis.isLiveWire other = true) :
    board.hides analysis wire = !analysis.isLiveWire wire := by
  simp only [feeds, Bool.and_eq_true, decide_eq_true_eq] at hwire hfeeds
  have hport : other.target.port = wire.target.port :=
    UInt64.toNat_inj.mp (hfeeds.2.trans hwire.2.symm)
  have hany : (board.wires.any fun other => analysis.isLiveWire other &&
      other.target.node = wire.target.node && other.target.port = wire.target.port) = true := by
    rw [List.any_eq_true]
    exact ⟨other, hother, by simp [hlive, hport, hfeeds.1.2, hwire.1.2]⟩
  rw [hides, hany, Bool.and_true]

/-- The live part reads nothing where no live wire counts. -/
theorem isLiveWire_of_feed?_none (h : board.analyse ports = .ok analysis) {id : NodeId} {port : Nat}
    (hnone : (board.livePart analysis).feed? ports id port = none) {wire : Wire}
    (hwire : wire ∈ board.wires) (hfeeds : board.feeds ports id port wire = true) :
    analysis.isLiveWire wire = false := by
  rw [feed?_livePart h, List.getLast?_eq_none_iff, List.filter_eq_nil_iff] at hnone
  simpa using hnone wire (List.mem_filter.mpr ⟨hwire, hfeeds⟩)

/-- Without the wires that hide live ones a board reads like its live part. -/
theorem readsAlike_uncovered (h : board.analyse ports = .ok analysis) :
    board.ReadsAlike ports analysis (board.uncovered analysis) := by
  have hwires : ∀ wire ∈ (board.uncovered analysis).wires, wire ∈ board.wires :=
    fun wire hwire => (List.mem_filter.mp hwire).1
  refine ⟨rfl, hwires, fun id port wire _ hfeed => ?_, fun id port wire _ hnone hfeed => ?_⟩
  · -- of the wires into the port the live ones are left, since there is one
    rw [feed?_livePart h] at hfeed
    have hmem := List.mem_of_getLast? hfeed
    obtain ⟨hmem, hlive⟩ := List.mem_filter.mp hmem
    obtain ⟨hwire, hfeeds⟩ := List.mem_filter.mp hmem
    rw [← hfeed, feed?]
    congr 1
    show (board.wires.filter _).filter (board.feeds ports id port) = _
    rw [List.filter_filter, List.filter_filter]
    refine List.filter_congr fun other _ => ?_
    cases hother : board.feeds ports id port other with
    | false => simp
    | true => simp [hides_of_feeds hother hwire hfeeds hlive]
  · have hmem := List.mem_of_getLast? hfeed
    obtain ⟨hmem, hfeeds⟩ := List.mem_filter.mp hmem
    exact isLiveWire_of_feed?_none h hnone (hwires wire hmem) hfeeds

/-- **A board reads like its live part exactly if it is unshadowed.** -/
theorem readsAlike_self_iff (h : board.analyse ports = .ok analysis) :
    board.ReadsAlike ports analysis board ↔ board.Unshadowed ports analysis := by
  constructor
  · intro hreads wire hwire hport hlast
    by_contra hhides
    simp only [hides, Bool.not_eq_false, Bool.and_eq_true, Bool.not_eq_true', List.any_eq_true,
      decide_eq_true_eq] at hhides
    obtain ⟨hdead, other, hother, ⟨hlive, hnode⟩, hsame⟩ := hhides
    -- the live part reads some wire there, which is the one that the board reads
    have hends : analysis.isLive other.source.node = true ∧
        analysis.isLive other.target.node = true := by
      simpa [Analysis.isLiveWire] using hlive
    have hfeeds : board.feeds ports wire.target.node wire.target.port.toNat other = true := by
      have hsource := ((isLive_iff h).mp hends.1).1
      have htarget := ((isLive_iff h).mp hends.2).1
      rw [hnode] at htarget
      simp [feeds, hsource, htarget, hnode, hsame]
    cases hpart : (board.livePart analysis).feed? ports wire.target.node wire.target.port.toNat with
    | none =>
      rw [isLiveWire_of_feed?_none h hpart hother hfeeds] at hlive
      cases hlive
    | some found =>
      have heq := hreads.live _ _ found hport hpart
      rw [hlast, Option.some.injEq] at heq
      rw [feed?_livePart h] at hpart
      have hfound := (List.mem_filter.mp (List.mem_of_getLast? hpart)).2
      rw [← heq, hdead] at hfound
      cases hfound
  · intro hunshadowed
    refine ⟨rfl, fun _ hwire => hwire, fun id port wire hport hfeed => ?_,
      fun id port wire _ hnone hfeed => ?_⟩
    · rw [feed?_livePart h] at hfeed
      obtain ⟨hmem, hlive⟩ := List.mem_filter.mp (List.mem_of_getLast? hfeed)
      obtain ⟨hwire, hfeeds⟩ := List.mem_filter.mp hmem
      -- the last wire of all hides nothing, so it is live itself
      obtain ⟨last, hlast⟩ : ∃ last, board.feed? ports id port = some last := by
        cases hcase : board.feed? ports id port with
        | none =>
          rw [feed?, List.getLast?_eq_none_iff] at hcase
          rw [hcase] at hmem
          cases hmem
        | some last => exact ⟨last, rfl⟩
      obtain ⟨hlastmem, -, -, hid, hp⟩ := mem_of_feed? hlast
      have hlastfeeds := (List.mem_filter.mp (List.mem_of_getLast? hlast)).2
      have hhides := hunshadowed last hlastmem (by rw [hid, hp]; exact hport)
        (by rw [hid, hp]; exact hlast)
      rw [hides_of_feeds hlastfeeds hwire hfeeds hlive, Bool.not_eq_false'] at hhides
      rw [hlast, ← hfeed]
      exact (getLast?_filter_of_pass hlast hhides).symm
    · obtain ⟨hmem, hfeeds⟩ := List.mem_filter.mp (List.mem_of_getLast? hfeed)
      exact isLiveWire_of_feed?_none h hnone hmem hfeeds

/-! ## Whole runs -/

/-- A run that has not begun yet, with nothing noted for any wire. -/
def startRun (board : Board) (circuit : Circuit) : CycleRecord.Run :=
  ⟨ofCircuit circuit, [], .ofList (board.wires.map fun wire => (wire.id, []))⟩

/-- A board without loops is run on what its live part bakes to. -/
theorem exists_livePart_run (hkeyed : board.nodes.KeyedById)
    (h : board.analyse ports = .ok analysis) (library : Library)
    (sequence : List (List Binary64)) :
    ∃ circuit record, (board.livePart analysis).bake ports library = .ok circuit ∧
      (board.livePart analysis).RunBy ports library (ofCircuit circuit) ∧
      board.runCycles ports library sequence = .ok record ∧
      let run := sequence.foldl (CycleRecord.Run.cycle analysis board.wires) (board.startRun circuit)
      record.outputValues = run.outputValues ∧ record.wireValues = run.wireValues ∧
        record.live = analysis.live ∧ record.memories = run.evaluator.memories := by
  have hacyclic := acyclic_livePart analysis (exists_analyse_iff.mp ⟨analysis, h⟩)
  obtain ⟨circuit, hbake, hrun, -⟩ :=
    exists_laidOut (keyedById_livePart analysis hkeyed) hacyclic library
  have hrecord : ∃ record, board.runCycles ports library sequence = .ok record ∧
      let run := sequence.foldl (CycleRecord.Run.cycle analysis board.wires) (board.startRun circuit)
      record.outputValues = run.outputValues ∧ record.wireValues = run.wireValues ∧
        record.live = analysis.live ∧ record.memories = run.evaluator.memories := by
    rw [runCycles, h]
    show ∃ record, ((board.livePart analysis).bake ports library >>= _) = .ok record ∧ _
    rw [hbake]
    exact ⟨_, rfl, rfl, rfl, rfl, rfl⟩
  obtain ⟨record, hok, hseen⟩ := hrecord
  exact ⟨circuit, record, hbake, hrun, hok, hseen⟩

/-- The outputs of a run are the answers of what the live part bakes to. -/
theorem exists_runCycles (hkeyed : board.nodes.KeyedById) (h : board.analyse ports = .ok analysis)
    (library : Library) (sequence : List (List Binary64)) :
    ∃ circuit record, (board.livePart analysis).RunBy ports library (ofCircuit circuit) ∧
      board.runCycles ports library sequence = .ok record ∧
      record.outputValues = (ofCircuit circuit).answers sequence := by
  obtain ⟨circuit, record, -, hrun, hok, houtputs, -⟩ :=
    exists_livePart_run hkeyed h library sequence
  refine ⟨circuit, record, hrun, hok, ?_⟩
  rw [houtputs, CycleRecord.outputValues_foldl]
  rfl

/-- **What a run of the live part gives.** It gives the outputs of the board without the wires that
hide live ones, and so those of the board itself as long as no port reads such a wire. -/
theorem runCycles_outputValues (hkeyed : board.nodes.KeyedById)
    (hacyclic : (board.digraph ports).Acyclic) (library : Library)
    (sequence : List (List Binary64)) :
    ∃ analysis circuit record, board.analyse ports = .ok analysis ∧
      board.bake ports library = .ok circuit ∧
      board.runCycles ports library sequence = .ok record ∧
      (∃ uncovered, (board.uncovered analysis).bake ports library = .ok uncovered ∧
        record.outputValues = (ofCircuit uncovered).answers sequence) ∧
      (board.Unshadowed ports analysis →
        record.outputValues = (ofCircuit circuit).answers sequence) := by
  obtain ⟨analysis, h⟩ := exists_analyse_iff.mpr hacyclic
  obtain ⟨part, record, hpart, hok, houtputs⟩ := exists_runCycles hkeyed h library sequence
  obtain ⟨circuit, hbake, hrun, -⟩ := exists_laidOut hkeyed hacyclic library
  have hacyclicpart := acyclic_livePart analysis hacyclic
  have hacyclicuncovered := acyclic_of_subset (board.uncovered analysis) hacyclic
    (fun id hid => hid) (fun wire hwire => (List.mem_filter.mp hwire).1)
  have hkeyeduncovered : (board.uncovered analysis).nodes.KeyedById := hkeyed
  obtain ⟨uncovered, hbakeuncovered, hrununcovered, -⟩ :=
    exists_laidOut hkeyeduncovered hacyclicuncovered library
  -- the wires that hide live ones can be left out in any case; they need not be if there is none
  refine ⟨analysis, circuit, record, h, hbake, hok, ⟨uncovered, hbakeuncovered, ?_⟩, ?_⟩
  · rw [houtputs]
    exact outputs_eq_of_readsAlike (readsAlike_uncovered h) h hacyclicpart hacyclicuncovered hpart
      hrununcovered sequence
  · intro hunshadowed
    rw [houtputs]
    exact outputs_eq_of_readsAlike ((readsAlike_self_iff h).mpr hunshadowed) h hacyclicpart
      hacyclic hpart hrun sequence

/-- On the board that holds its input back no port is fed twice, so a run gives the outputs of the
baked board for every sequence. -/
theorem runCycles_outputValues_heldBack :
    heldBack.nodes.KeyedById ∧ (heldBack.digraph ⟨1, 1⟩).Acyclic ∧
      ∀ sequence, ∃ circuit record, heldBack.bake ⟨1, 1⟩ .empty = .ok circuit ∧
        heldBack.runCycles ⟨1, 1⟩ .empty sequence = .ok record ∧
        record.outputValues = (ofCircuit circuit).answers sequence := by
  have hkeyed : heldBack.nodes.KeyedById := by decide +kernel
  have hacyclic : (heldBack.digraph ⟨1, 1⟩).Acyclic := by decide +kernel
  have hunshadowed : (match heldBack.analyse ⟨1, 1⟩ with
      | .ok analysis => decide (heldBack.Unshadowed ⟨1, 1⟩ analysis)
      | .error _ => false) = true := by decide +kernel
  refine ⟨hkeyed, hacyclic, fun sequence => ?_⟩
  obtain ⟨analysis, circuit, record, h, hbake, hok, -, hsame⟩ :=
    runCycles_outputValues hkeyed hacyclic .empty sequence
  rw [h] at hunshadowed
  exact ⟨circuit, record, hbake, hok, hsame (of_decide_eq_true hunshadowed)⟩

/-- An outside output with two wires into it, the last one from a node that nothing drives. -/
def shadowed : Board where
  nodes := .ofList [(⟨"a"⟩, .ofKind ⟨"a"⟩ .invert)]
  wires := [.between ⟨"w1"⟩ (.input 0) 0 (.output 0) 0, .between ⟨"w2"⟩ ⟨"a"⟩ 0 (.output 0) 0]

/-- The whole board gives what is on the last wire, the live part what is on the first one. -/
theorem runCycles_shadowed :
    shadowed.nodes.KeyedById ∧ (shadowed.digraph ⟨1, 1⟩).Acyclic ∧
      (shadowed.bake ⟨1, 1⟩ .empty).map (fun circuit => (ofCircuit circuit).answers [[50]])
        = .ok [[.zero]] ∧
      (shadowed.runCycles ⟨1, 1⟩ .empty [[50]]).map (·.outputValues) = .ok [[50]] ∧
      (50 : Binary64) ≠ .zero := by
  refine ⟨?_, ?_, ?_, ?_, ?_⟩ <;> decide +kernel

end Board
end SignalBoard
