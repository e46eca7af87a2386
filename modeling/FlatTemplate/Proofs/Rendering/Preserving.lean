import FlatTemplate.Proofs.Parser.Parsed
import FlatTemplate.Proofs.Rendering.Hoisting
import FlatTemplate.Proofs.Session.Canonicalizing
import FlatTemplate.Proofs.Template.Hygiene

namespace FlatTemplate

variable {V : Type*} (I : Interpretation V)

def blockAfter (s : Frame V) : Block Handle → Frame V
  | [] => s
  | stmt :: rest => blockAfter (stmt.after I s) rest

theorem blockOutput_append (s : Frame V) (as bs : Block Handle) :
    blockOutput I s (as ++ bs) = blockOutput I s as ++ blockOutput I (blockAfter I s as) bs := by
  induction as generalizing s with
  | nil => simp [blockOutput, blockAfter]
  | cons stmt as ih =>
    rw [List.cons_append, blockOutput, blockOutput, blockAfter, ih, String.append_assoc]

theorem blockAfter_append (s : Frame V) (as bs : Block Handle) :
    blockAfter I s (as ++ bs) = blockAfter I (blockAfter I s as) bs := by
  induction as generalizing s with
  | nil => rfl
  | cons stmt as ih => rw [List.cons_append, blockAfter, blockAfter, ih]

theorem blockOutput_congr {A : String → Prop} {s s' : Frame V} (h : s.Renames id A s')
    {b : Block Handle} (hb : Governed (Pipe.Named A) b) :
    blockOutput I s' b = blockOutput I s b := by
  have := blockOutput_rename I (g := id) (fun _ _ _ _ => id) h b hb
  rwa [blockRename_id] at this

namespace Stmt

variable {A : String → Prop} {s s' : Frame V} {stmt : Stmt Handle}

theorem output_congr (h : s.Renames id A s') (hstmt : Governed (Pipe.Named A) [stmt]) :
    stmt.output I s' = stmt.output I s := by
  have := stmt.output_rename I (g := id) (fun _ _ _ _ => id) h hstmt
  rwa [Stmt.rename_id] at this

theorem after_congr (h : s.Renames id A s') (hstmt : Governed (Pipe.Named A) [stmt]) :
    (stmt.after I s).Renames id A (stmt.after I s') := by
  have := stmt.after_rename I (g := id) (fun _ _ _ _ => id) h hstmt
  rwa [Stmt.rename_id] at this

theorem output_govern {p q : Pipe Handle} (hp : stmt.governing? = some p)
    (hdecls : q.decls = p.decls) (hvalue : q.value I s = p.value I s) :
    (stmt.govern q).output I s = stmt.output I s ∧ (stmt.govern q).after I s = stmt.after I s := by
  match stmt with
  | .action .. | .branch _ .cond .. | .branch _ .within .. | .branch _ .range ..
  | .invoke _ _ (some _) =>
    obtain rfl := Option.some.inj hp
    simp only [govern, output, after, hdecls, hvalue, and_self]

theorem output_ahead {f : Fresh} {r : Rewriting (Pipe Handle)} (s : Frame V)
    (hname : ∀ a ∈ r.ahead, a.decls = [f.name]) :
    blockOutput I s (r.ahead.map (.action f.stmt)).toList = "" ∧
      blockAfter I s (r.ahead.map (.action f.stmt)).toList = r.behind I s := by
  unfold Rewriting.behind
  cases ha : r.ahead with
  | none => exact ⟨rfl, rfl⟩
  | some a =>
    refine ⟨?_, rfl⟩
    have hdecls : a.decls.isEmpty = false := by rw [hname a ha, List.isEmpty_cons]
    simp [blockOutput, output, hdecls]

theorem output_split {f : Fresh} {p : Pipe Handle} (hp : stmt.governing? = some p)
    (hrole : stmt.role = .print) (s : Frame V) :
    blockOutput I s (stmt.govern (.mk p.tag [f.name] p.commands) :: [f.print]) = stmt.output I s ∧
      (stmt.after I s).Renames id (· ≠ f.name)
        (blockAfter I s (stmt.govern (.mk p.tag [f.name] p.commands) :: [f.print])) := by
  match stmt with
  | .branch .. | .invoke _ _ (some _) => cases hrole
  | .action id (.mk tag decls commands) =>
    obtain rfl := Option.some.inj hp
    obtain rfl : decls = [] := by
      by_cases hdecls : decls = []
      · exact hdecls
      · simp [role, Pipe.actionRole, hdecls] at hrole
    refine ⟨?_, s.declare_agrees f.name _⟩
    have hread (s : Frame V) : (Pipe.mk f.pipe [] [f.read]).value I s = s.vars f.name := rfl
    simp only [govern, Fresh.print, blockOutput, output, after, hread, Pipe.decls_mk,
      List.isEmpty_nil, List.isEmpty_cons, if_true, Frame.vars_declare]
    simp [Pipe.value]

theorem output_rewriteOwn? {f : Fresh} {own : BlockRewriting} (h : stmt.rewriteOwn? f = some own)
    (hnamed : Governed (Pipe.Named (· ≠ f.name)) [stmt]) (hquiet : Governed Pipe.Quiet [stmt])
    (s : Frame V) : blockOutput I s own.block = stmt.output I s ∧
      (stmt.after I s).Renames id (· ≠ f.name) (blockAfter I s own.block) := by
  rw [rewriteOwn?_eq] at h
  obtain ⟨p, hp, h⟩ := Option.bind_eq_some_iff.mp h
  obtain ⟨r, hr, rfl⟩ := Option.map_eq_some_iff.mp h
  have hrewrites := Pipe.rewrite?_rewrites hr
  have hpnamed := governed_own hp hnamed
  have hpquiet := governed_own hp hquiet
  rw [block_around]
  by_cases hsplit : r.found.edit = .splitPrint
  · obtain ⟨hrole, hahead, hrest⟩ := hrewrites.of_split hsplit
    rw [hahead, hrest, if_pos hsplit]
    exact output_split I hp hrole s
  · have hdecls := hrewrites.rest_decls
    rw [if_neg hsplit] at hdecls ⊢
    have hname := (hrewrites.quiet hpquiet).2
    have hagrees := Rewriting.behind_agrees I s hname
    have hvalue := hrewrites.value I s hpnamed hpquiet
    -- In the frame behind the action in front, the host has the value that it had.
    have hsame : p.value I (r.behind I s) = p.value I s := Pipe.value_congr I hagrees hpnamed
    obtain ⟨houtput, hafter⟩ := output_govern I hp hdecls (hvalue.trans hsame.symm)
    obtain ⟨hfirst, hbehind⟩ := output_ahead I s hname
    rw [blockOutput_append, blockAfter_append, hfirst, hbehind, blockOutput, blockOutput,
      blockAfter, blockAfter, houtput, hafter]
    refine ⟨?_, after_congr I hagrees hnamed⟩
    rw [output_congr I hagrees hnamed, String.append_empty, String.empty_append]

end Stmt

theorem blockOutput_plug (C : BlockContext) {b b' : Block Handle}
    (h : ∀ s, blockOutput I s b' = blockOutput I s b) (s : Frame V) :
    blockOutput I s (C.plug b') = blockOutput I s (C.plug b) := by
  induction C generalizing s with
  | hole => exact h s
  | inBody pre id kind pipe inner elseBody post ih =>
    cases kind <;>
      simp only [BlockContext.plug, blockOutput_append, blockOutput, Stmt.output, ih, Stmt.after]
  | inElse pre id kind pipe body inner post ih =>
    cases kind <;>
      simp only [BlockContext.plug, blockOutput_append, blockOutput, Stmt.output, ih, Stmt.after]

theorem blockOutput_rewrite {f : Fresh} {b : Block Handle} {r : BlockRewriting}
    (h : blockRewrite? f b = some r) (hnamed : Governed (Pipe.Named (· ≠ f.name)) b)
    (hquiet : Governed Pipe.Quiet b) (s : Frame V) :
    blockOutput I s r.block = blockOutput I s b := by
  obtain ⟨C, pre, stmt, post, own, hown, rfl, rfl⟩ := blockRewrite?_eq_some h
  have hnamed := hnamed.of_plug
  have hquiet := hquiet.of_plug
  rw [governed_append, governed_cons] at hnamed hquiet
  refine blockOutput_plug I C (fun s => ?_) s
  obtain ⟨houtput, hafter⟩ :=
    Stmt.output_rewriteOwn? I hown hnamed.2.1 hquiet.2.1 (blockAfter I s pre)
  rw [List.append_assoc, blockOutput_append, blockOutput_append, blockOutput_append, houtput,
    blockOutput_congr I hafter hnamed.2.2, blockOutput]

namespace Draft.Run

variable {config : Config} {n : Nat} {d d' : Draft}

theorem output (h : Draft.Run config.tempStem n d d') (hconfig : config.Valid)
    (hnamed : d.Named (IsRespelled config.userTag) config.tempStem)
    (hquiet : Governed Pipe.Quiet d.block) (s : Frame V) :
    blockOutput I s d'.block = blockOutput I s d.block := by
  induction h with
  | refl => rfl
  | @step n d d' d'' r hnext hrun ih =>
    have hblock := blockOutput_rewrite I hnext.rewrite (hconfig.named_fresh hnamed) hquiet s
    have hquiet' := quiet_blockRewrite? hnext.rewrite hquiet
    rw [← hnext.block] at hblock hquiet'
    exact (ih (hnext.named hnamed) hquiet').trans hblock

end Draft.Run

theorem Config.Valid.renames_start {config : Config} (h : config.Valid) (root : V) :
    (I.start root).Renames (respell config.userTag) IsVariable (I.start root) := by
  refine ⟨rfl, fun x hx => ?_⟩
  simp only [Interpretation.start]
  by_cases hroot : x = rootVariable
  · rw [hroot, respell_root]
  · rw [Function.update_of_ne hroot, Function.update_of_ne (h.respell_ne_root hx hroot)]

/-- If no pipeline in parentheses declares a variable, a template renders to the same text before
and after a session, whatever its parts mean. -/
theorem Tree.canonicalize_renders (I : Interpretation V) (root : V) {t : Tree} (ht : t.Parsed)
    {b : Block Handle} (hb : t.read = .ok b) (hquiet : Governed Pipe.Quiet b) {config : Config}
    (hvalid : config.validate = .ok ()) :
    ∃ outcome b', t.canonicalize config = .ok outcome ∧ outcome.tree.read = .ok b' ∧
      renderBlock I root b' = renderBlock I root b := by
  obtain ⟨b₀, hproper, hholds⟩ := ht.holds
  obtain rfl := Except.ok.inj (hb.symm.trans hholds.read)
  obtain ⟨outcome, n, d, d', hrun, h⟩ := hholds.canonicalize hvalid
  have hconfig := Config.valid_of_validate hvalid
  have hvariables := named_of_proper hproper
  have hnamed : d.Named (IsRespelled config.userTag) config.tempStem := by
    rw [Draft.Named, h.block]
    exact (named_blockRename _ hvariables).imp fun p hp e he => (hp e he).mono fun x hx => .inl hx
  have hquiet' : Governed Pipe.Quiet d.block := by
    rw [h.block]
    exact governed_blockRename (fun p hp => Pipe.quiet_rename _ hp) hquiet
  refine ⟨outcome, d'.block, hrun, h.holds.read, ?_⟩
  calc renderBlock I root d'.block = renderBlock I root d.block :=
        h.run.output I hconfig hnamed hquiet' _
    _ = renderBlock I root b := by
        rw [h.block]
        exact blockOutput_rename I (fun x y hx hy => hconfig.respell_inj hx hy)
          (hconfig.renames_start I root) b hvariables

def spelling : Interpretation String where
  str text := text
  number spelling := spelling
  bool value := toString value
  call name args := name ++ "(" ++ ",".intercalate args ++ ")"
  identifier name := name
  path v segments := ".".intercalate (v :: segments)
  method v segments args := ".".intercalate (v :: segments) ++ "(" ++ ",".intercalate args ++ ")"
  apply v args := v ++ "(" ++ ",".intercalate args ++ ")"
  truth _ := true
  entries v := [("0", v ++ "[0]"), ("1", v ++ "[1]")]
  render v := v ++ ";"
  template name v := name ++ ":" ++ v.getD "" ++ ";"
  unbound := "?"

def rangeCall : Tree :=
  let pair : Pipe Untagged :=
    .mk () [] [.mk () (.atom () (.identifier "pair")) [.atom () (.var ["$i"]), .atom () (.var ["$x"])]]
  .ofBlock "" [.branch () .range
    (.mk () ["$i", "$x"] [.mk () (.atom () (.identifier "all")) [.atom () (.field ["Items"])]])
    [.action () (.mk () [] [.mk () (.atom () (.identifier "show"))
      [.atom () (.field ["Name"]), .paren () pair]])] []]

theorem parse_rangeCall : Tree.parse (delimited "range $i, $x := all .Items" ++
    delimited "show .Name (pair $i $x)" ++ delimited "end") = .ok rangeCall := by cbv

theorem canonicalize_renders_rangeCall :
    ∃ outcome b', rangeCall.canonicalize {} = .ok outcome ∧ outcome.tree.read = .ok b' ∧
      renderBlock spelling "data" b' = "show(all(data.Items)[0].Name,pair(0,all(data.Items)[0]));" ++
        "show(all(data.Items)[1].Name,pair(1,all(data.Items)[1]));" := by
  have hparsed := Tree.parsed_of_parse parse_rangeCall
  obtain ⟨b, -, hholds⟩ := hparsed.holds
  have hb := hholds.read
  have hquiet : rangeCall.read.map (fun b => decide (Governed Pipe.Quiet b)) = .ok true := by cbv
  have hrender : rangeCall.read.map (renderBlock spelling "data") =
      .ok ("show(all(data.Items)[0].Name,pair(0,all(data.Items)[0]));" ++
        "show(all(data.Items)[1].Name,pair(1,all(data.Items)[1]));") := by cbv
  rw [hb] at hquiet hrender
  obtain ⟨outcome, b', hrun, hb', hsame⟩ := Tree.canonicalize_renders spelling "data" hparsed hb
    (of_decide_eq_true (Except.ok.inj hquiet)) Config.validate_default
  exact ⟨outcome, b', hrun, hb', hsame.trans (Except.ok.inj hrender)⟩

end FlatTemplate
