import Mathlib.Data.List.Basic
import Mathlib.Data.List.Nodup
import Mathlib.Logic.Relation

/-!
# Requests and replies over streams

A server that serves one connection at a time, and clients that each send a list of requests and wait
for every reply. All of them talk over streams: a message is sent and received in as many parts as it
pleases, and the parts of all parties interleave (`Step`). A client may die at any moment, and the end
of what it has sent is then lost; others (`foreign`) may send anything at all.

What comes out of it is a sequential affair: the server serves one whole session after the other, one
request at a time (`Conducted`). For every client that is not foreign, the requests it is served are
the first ones of its list, and the replies it has received are the replies to them but for at most
one that is still under way or lost (`served_in_order`).
-/

universe u

namespace Session

/-! ### Messages on a stream -/

/-- What a reader makes of the units it has so far. -/
inductive Scan (μ : Type u) where
  /-- At least so many units are missing. -/
  | more (n : Nat)
  | got (m : μ)
  | bad

/-- How messages are written, and how a reader that never asks for too much finds their end. -/
structure Framing (α μ : Type u) where
  encode : μ → List α
  scan : List α → Scan μ
  /-- The messages that can be written. -/
  Fits : μ → Prop
  scan_nil : ∃ n, scan [] = .more n
  more_pos : ∀ {p n}, scan p = .more n → 0 < n
  scan_encode : ∀ {m}, Fits m → scan (encode m) = .got m
  scan_part : ∀ {m p q}, Fits m → encode m = p ++ q → q ≠ [] → ∃ n, scan p = .more n ∧ n ≤ q.length

theorem Framing.encode_ne_nil {α μ : Type u} (f : Framing α μ) {m : μ} (h : f.Fits m) :
    f.encode m ≠ [] := by
  intro hnil
  obtain ⟨n, hn⟩ := f.scan_nil
  have hgot := f.scan_encode h
  rw [hnil, hn] at hgot
  cases hgot

/-- Messages that are written as other messages. -/
def Framing.through {α μ ν : Type u} (f : Framing α μ) (enc : ν → μ) (dec : μ → Option ν)
    (Fits : ν → Prop) (hfits : ∀ {v}, Fits v → f.Fits (enc v))
    (hdec : ∀ {v}, Fits v → dec (enc v) = some v) : Framing α ν where
  encode v := f.encode (enc v)
  scan p :=
    match f.scan p with
    | .more n => .more n
    | .got m =>
      match dec m with
      | some v => .got v
      | none => .bad
    | .bad => .bad
  Fits := Fits
  scan_nil := by
    obtain ⟨n, hn⟩ := f.scan_nil
    exact ⟨n, by simp only [hn]⟩
  more_pos := by
    intro p n h
    cases hscan : f.scan p with
    | more k =>
      simp only [hscan, Scan.more.injEq] at h
      exact h ▸ f.more_pos hscan
    | got m =>
      simp only [hscan] at h
      split at h <;> cases h
    | bad =>
      simp only [hscan] at h
      cases h
  scan_encode := by
    intro v hv
    simp only [f.scan_encode (hfits hv), hdec hv]
  scan_part := by
    intro v p q hv hm hq
    obtain ⟨n, hn, hle⟩ := f.scan_part (hfits hv) hm hq
    exact ⟨n, by simp only [hn], hle⟩

/-! ### The parties -/

structure Server (σ Req Rep : Type u) where
  accept : σ → σ
  handle : σ → Req → σ × Rep
  /-- A read has failed: the connection is over. -/
  hangUp : σ → σ
  /-- No connection could be accepted. -/
  giveUp : σ → σ
  listens : σ → Bool
  /-- The connection goes on after a request. -/
  stays : σ → Bool

inductive Phase (α : Type u) where
  | idle
  /-- The rest of a request has to be sent. -/
  | sending (rest : List α)
  /-- This much of the reply has been received. -/
  | receiving (got : List α)
  | gone

structure Client (α Req Rep : Type u) where
  todo : List Req
  phase : Phase α := .idle
  replies : List Rep := []

/-- What is under way between a client and the server. -/
structure Link (α : Type u) where
  up : List α := []
  down : List α := []

/-- What the server does on its connection. -/
inductive Activity (α : Type u) where
  | reading (got : List α)
  | writing (rest : List α)

structure System (α ι σ Req Rep : Type u) where
  server : σ
  serving : Option (ι × Activity α) := none
  accepted : List ι := []
  client : ι → Client α Req Rep
  link : ι → Link α := fun _ => {}

structure Network (α ι σ Req Rep : Type u) where
  server : Server σ Req Rep
  requests : Framing α Req
  replies : Framing α Rep
  /-- The clients that send whatever they like. -/
  foreign : ι → Prop

section

variable {α ι σ Req Rep : Type u} [DecidableEq ι]

/-- A client with its requests before it has sent anything. -/
def Client.fresh (script : List Req) : Client α Req Rep := { todo := script }

/-- What a client does with the part of a reply it has now. -/
def Client.receive (c : Client α Req Rep) (got : List α) : Scan Rep → Client α Req Rep
  | .more _ => { c with phase := .receiving got }
  | .got rep => { c with phase := .idle, replies := c.replies ++ [rep] }
  | .bad => { c with phase := .gone }

namespace System

variable (s : System α ι σ Req Rep)

/-- Something happens at one end of a link. -/
def put (i : ι) (c : Client α Req Rep) (l : Link α) : System α ι σ Req Rep :=
  { s with client := Function.update s.client i c, link := Function.update s.link i l }

/-- The server has dealt with its connection up to here. -/
def become (c : σ) (serving : Option (ι × Activity α)) : System α ι σ Req Rep :=
  { s with server := c, serving }

/-- What the server does on the connection of a client. -/
def activity (i : ι) : Activity α :=
  match s.serving with
  | some (j, act) => if j = i then act else .reading []
  | none => .reading []

end System

variable (net : Network α ι σ Req Rep)

/-- What the server does on the connection once a reply is written. -/
def Network.next (c : σ) (i : ι) : Option (ι × Activity α) :=
  if net.server.stays c then some (i, .reading []) else none

/-- What the server does with the part of a request it has now. -/
def Network.consume (s : System α ι σ Req Rep) (i : ι) (got : List α) :
    Scan Req → System α ι σ Req Rep
  | .more _ => s.become s.server (some (i, .reading got))
  | .got r =>
    s.become (net.server.handle s.server r).1
      (some (i, .writing (net.replies.encode (net.server.handle s.server r).2)))
  | .bad => s.become (net.server.hangUp s.server) none

/-- One step of one party. -/
inductive Step (s : System α ι σ Req Rep) : System α ι σ Req Rep → Prop where
  /-- A client turns to its next request. -/
  | call {i : ι} {r : Req} {rs : List Req} (hphase : (s.client i).phase = .idle)
      (htodo : (s.client i).todo = r :: rs) :
      Step s (s.put i { s.client i with todo := rs, phase := .sending (net.requests.encode r) }
        (s.link i))
  | send {i : ι} {part rest : List α} (hphase : (s.client i).phase = .sending (part ++ rest))
      (hpart : part ≠ []) :
      Step s (s.put i
        { s.client i with phase := if rest.isEmpty then .receiving [] else .sending rest }
        { s.link i with up := (s.link i).up ++ part })
  | receive {i : ι} {got part rest : List α} {n : Nat}
      (hphase : (s.client i).phase = .receiving got) (hscan : net.replies.scan got = .more n)
      (hdown : (s.link i).down = part ++ rest) (hpart : part ≠ []) (hlen : part.length ≤ n) :
      Step s (s.put i ((s.client i).receive (got ++ part) (net.replies.scan (got ++ part)))
        { s.link i with down := rest })
  /-- A client is done and closes its end. -/
  | leave {i : ι} (hphase : (s.client i).phase = .idle) (htodo : (s.client i).todo = []) :
      Step s (s.put i { s.client i with phase := .gone } (s.link i))
  /-- A client dies; only the first part of what it has under way arrives. -/
  | die {i : ι} {arrives lost : List α} (hphase : (s.client i).phase ≠ .gone)
      (hup : (s.link i).up = arrives ++ lost) :
      Step s (s.put i { s.client i with phase := .gone } { s.link i with up := arrives })
  | inject {i : ι} (units : List α) (hforeign : net.foreign i)
      (hphase : (s.client i).phase ≠ .gone) :
      Step s (s.put i (s.client i) { s.link i with up := (s.link i).up ++ units })
  | accept {i : ι} (hserving : s.serving = none) (hlistens : net.server.listens s.server = true)
      (hnew : i ∉ s.accepted) :
      Step s { s.become (net.server.accept s.server) (some (i, .reading [])) with
        accepted := s.accepted ++ [i] }
  | giveUp (hserving : s.serving = none) (hlistens : net.server.listens s.server = true) :
      Step s (s.become (net.server.giveUp s.server) none)
  | read {i : ι} {got part rest : List α} {n : Nat} (hserving : s.serving = some (i, .reading got))
      (hscan : net.requests.scan got = .more n) (hup : (s.link i).up = part ++ rest)
      (hpart : part ≠ []) (hlen : part.length ≤ n) :
      Step s (net.consume (s.put i (s.client i) { s.link i with up := rest }) i (got ++ part)
        (net.requests.scan (got ++ part)))
  /-- The server finds the stream at its end. -/
  | readEnd {i : ι} {got : List α} (hserving : s.serving = some (i, .reading got))
      (hphase : (s.client i).phase = .gone) (hup : (s.link i).up = []) :
      Step s (s.become (net.server.hangUp s.server) none)
  | write {i : ι} {part rest : List α} (hserving : s.serving = some (i, .writing (part ++ rest)))
      (hpart : part ≠ []) :
      Step s ((s.put i (s.client i) { s.link i with down := (s.link i).down ++ part }).become
        s.server (if rest.isEmpty then net.next s.server i else some (i, .writing rest)))
  /-- The server writes to a client that is gone, and goes on. -/
  | writeFails {i : ι} {rest : List α} (hserving : s.serving = some (i, .writing rest))
      (hphase : (s.client i).phase = .gone) :
      Step s (s.become s.server (net.next s.server i))

/-- Any interleaving of the steps of all parties. -/
abbrev Steps : System α ι σ Req Rep → System α ι σ Req Rep → Prop :=
  Relation.ReflTransGen (Step net)

/-! ### Sequential service -/

/-- A session as the server conducted it. -/
structure Record (ι Req Rep : Type u) where
  client : ι
  requests : List Req := []
  replies : List Rep := []

/-- The server conducts one session after the other, one request at a time, and gets to the state `c`;
the flag says whether the connection of the last session is still open. -/
inductive Conducted (srv : Server σ Req Rep) (c₀ : σ) :
    List (Record ι Req Rep) → Bool → σ → Prop where
  | start : Conducted srv c₀ [] false c₀
  | accept {past : List (Record ι Req Rep)} {c : σ} (i : ι) (h : Conducted srv c₀ past false c)
      (hlistens : srv.listens c = true) :
      Conducted srv c₀ (past ++ [{ client := i }]) true (srv.accept c)
  | handle {past : List (Record ι Req Rep)} {ses : Record ι Req Rep} {c : σ} (r : Req)
      (h : Conducted srv c₀ (past ++ [ses]) true c) :
      Conducted srv c₀
        (past ++ [{ ses with
          requests := ses.requests ++ [r]
          replies := ses.replies ++ [(srv.handle c r).2] }])
        (srv.stays (srv.handle c r).1) (srv.handle c r).1
  | hangUp {past : List (Record ι Req Rep)} {c : σ} (h : Conducted srv c₀ past true c) :
      Conducted srv c₀ past false (srv.hangUp c)
  | giveUp {past : List (Record ι Req Rep)} {c : σ} (h : Conducted srv c₀ past false c)
      (hlistens : srv.listens c = true) : Conducted srv c₀ past false (srv.giveUp c)

/-- The requests of a client that were handled. -/
def handled (past : List (Record ι Req Rep)) (i : ι) : List Req :=
  (past.filter (·.client = i)).flatMap (·.requests)

/-- The replies to them. -/
def answered (past : List (Record ι Req Rep)) (i : ι) : List Rep :=
  (past.filter (·.client = i)).flatMap (·.replies)

theorem handled_append (past : List (Record ι Req Rep)) (ses : Record ι Req Rep) (i : ι) :
    handled (past ++ [ses]) i = handled past i ++ if ses.client = i then ses.requests else [] := by
  unfold handled
  rw [List.filter_append, List.flatMap_append]
  by_cases h : ses.client = i <;> simp [h]

theorem answered_append (past : List (Record ι Req Rep)) (ses : Record ι Req Rep) (i : ι) :
    answered (past ++ [ses]) i = answered past i ++ if ses.client = i then ses.replies else [] := by
  unfold answered
  rw [List.filter_append, List.flatMap_append]
  by_cases h : ses.client = i <;> simp [h]

theorem handled_of_mem {past : List (Record ι Req Rep)} {ses : Record ι Req Rep}
    (hnodup : (past.map (·.client)).Nodup) (hses : ses ∈ past) :
    handled past ses.client = ses.requests ∧ answered past ses.client = ses.replies := by
  have hfilter : past.filter (·.client = ses.client) = [ses] := by
    induction past with
    | nil => cases hses
    | cons r past ih =>
      rw [List.map_cons, List.nodup_cons] at hnodup
      rcases List.mem_cons.mp hses with rfl | hmem
      · have hnone : past.filter (·.client = ses.client) = [] := by
          refine List.filter_eq_nil_iff.mpr fun x hx => ?_
          rw [decide_eq_true_iff]
          exact fun heq => hnodup.1 (List.mem_map.mpr ⟨x, hx, heq⟩)
        rw [List.filter_cons_of_pos (by simp), hnone]
      · have hne : r.client ≠ ses.client := fun heq =>
          hnodup.1 (List.mem_map.mpr ⟨ses, hmem, heq.symm⟩)
        rw [List.filter_cons_of_neg (by simpa using hne)]
        exact ih hnodup.2 hmem
  unfold handled answered
  rw [hfilter, List.flatMap_singleton, List.flatMap_singleton]
  exact ⟨rfl, rfl⟩

theorem answered_of_not_mem {past : List (Record ι Req Rep)} {i : ι}
    (hi : i ∉ past.map (·.client)) : answered past i = [] := by
  have hfilter : past.filter (·.client = i) = [] := by
    refine List.filter_eq_nil_iff.mpr fun x hx => ?_
    rw [decide_eq_true_iff]
    exact fun heq => hi (List.mem_map.mpr ⟨x, hx, heq⟩)
  unfold answered
  rw [hfilter]
  rfl

end

/-! ### One client -/

section Coherent

variable {α Req Rep : Type u} {requests : Framing α Req} {replies : Framing α Rep} {script : List Req}

/-- How a client, its link and the server's end of the connection fit together, where the server has
handled the requests `hs` of the client and replied `as`. -/
inductive Coherent (requests : Framing α Req) (replies : Framing α Rep) (script : List Req) :
    Client α Req Rep → Link α → Activity α → List Req → List Rep → Prop where
  | idle {todo hs : List Req} {as : List Rep} (hscript : script = hs ++ todo) :
      Coherent requests replies script ⟨todo, .idle, as⟩ ⟨[], []⟩ (.reading []) hs as
  | sending {todo hs : List Req} {r : Req} {as : List Rep} {got up rest : List α}
      (hscript : script = hs ++ r :: todo) (hrequest : requests.encode r = got ++ (up ++ rest))
      (hrest : rest ≠ []) :
      Coherent requests replies script ⟨todo, .sending rest, as⟩ ⟨up, []⟩ (.reading got) hs as
  | waiting {todo hs : List Req} {r : Req} {as : List Rep} {got up : List α}
      (hscript : script = hs ++ r :: todo) (hrequest : requests.encode r = got ++ up)
      (hup : up ≠ []) :
      Coherent requests replies script ⟨todo, .receiving [], as⟩ ⟨up, []⟩ (.reading got) hs as
  | answered {todo hs : List Req} {reps : List Rep} {rep : Rep} {got down rest : List α}
      (hscript : script = hs ++ todo) (hfits : replies.Fits rep)
      (hreply : replies.encode rep = got ++ (down ++ rest)) (hrest : rest ≠ []) :
      Coherent requests replies script ⟨todo, .receiving got, reps⟩ ⟨[], down⟩ (.writing rest) hs
        (reps ++ [rep])
  | delivered {todo hs : List Req} {reps : List Rep} {rep : Rep} {got down : List α}
      (hscript : script = hs ++ todo) (hfits : replies.Fits rep)
      (hreply : replies.encode rep = got ++ down) (hdown : down ≠ []) :
      Coherent requests replies script ⟨todo, .receiving got, reps⟩ ⟨[], down⟩ (.reading []) hs
        (reps ++ [rep])
  /-- The client is gone before the server had all of a request. -/
  | unanswered {todo hs later : List Req} {as : List Rep} {got up down : List α}
      (hscript : script = hs ++ later)
      (hpart : got ++ up = [] ∨ ∃ r later' lost, later = r :: later' ∧
        requests.encode r = got ++ (up ++ lost)) :
      Coherent requests replies script ⟨todo, .gone, as⟩ ⟨up, down⟩ (.reading got) hs as
  /-- The client is gone before it had the reply to its last request. -/
  | unheard {todo hs later : List Req} {reps : List Rep} {rep : Rep} {down : List α}
      {act : Activity α} (hscript : script = hs ++ later)
      (hact : act = .reading [] ∨ ∃ rest, act = .writing rest) :
      Coherent requests replies script ⟨todo, .gone, reps⟩ ⟨[], down⟩ act hs (reps ++ [rep])

variable {c : Client α Req Rep} {l : Link α} {act : Activity α} {hs : List Req} {as : List Rep}

theorem coherent_fresh : Coherent requests replies script (.fresh script) {} (.reading []) [] [] :=
  .idle rfl

theorem Coherent.call (h : Coherent requests replies script c l act hs as)
    (hfits : ∀ r ∈ script, requests.Fits r) {r : Req} {rs : List Req} (hphase : c.phase = .idle)
    (htodo : c.todo = r :: rs) :
    Coherent requests replies script { c with todo := rs, phase := .sending (requests.encode r) } l
      act hs as := by
  cases h with
  | idle hscript =>
    simp only at htodo
    subst htodo
    have hr : requests.Fits r := hfits r (by simp [hscript])
    have hrequest : requests.encode r = [] ++ ([] ++ requests.encode r) := rfl
    exact .sending hscript hrequest (requests.encode_ne_nil hr)
  | sending | waiting | answered | delivered | unanswered | unheard => cases hphase

theorem Coherent.send (h : Coherent requests replies script c l act hs as) {part rest : List α}
    (hphase : c.phase = .sending (part ++ rest)) (hpart : part ≠ []) :
    Coherent requests replies script
      { c with phase := if rest.isEmpty then .receiving [] else .sending rest }
      { l with up := l.up ++ part } act hs as := by
  cases h with
  | sending hscript hrequest hrest =>
    cases hphase
    rename_i todo r got up
    cases rest with
    | nil =>
      rw [List.append_nil] at hrequest
      refine .waiting hscript hrequest fun hnil => hpart ?_
      exact (List.append_eq_nil_iff.mp hnil).2
    | cons u rest =>
      refine .sending hscript ?_ (List.cons_ne_nil u rest)
      rw [hrequest, List.append_assoc]
  | idle | waiting | answered | delivered | unanswered | unheard => cases hphase

theorem Framing.scan_append {μ : Type u} (f : Framing α μ) {m : μ} (hfits : f.Fits m)
    {got part rest : List α} (hm : f.encode m = got ++ (part ++ rest)) :
    (rest = [] ∧ f.scan (got ++ part) = .got m) ∨
      (rest ≠ [] ∧ ∃ n, f.scan (got ++ part) = .more n) := by
  rw [← List.append_assoc] at hm
  by_cases hrest : rest = []
  · left
    refine ⟨hrest, ?_⟩
    rw [hrest, List.append_nil] at hm
    rw [← hm]
    exact f.scan_encode hfits
  · right
    obtain ⟨n, hn, -⟩ := f.scan_part hfits hm hrest
    exact ⟨hrest, n, hn⟩

theorem Coherent.receive (h : Coherent requests replies script c l act hs as) {got part rest : List α}
    (hphase : c.phase = .receiving got) (hdown : l.down = part ++ rest) (hpart : part ≠ []) :
    Coherent requests replies script (c.receive (got ++ part) (replies.scan (got ++ part)))
      { l with down := rest } act hs as := by
  cases h with
  | idle | sending | unanswered | unheard => cases hphase
  | waiting =>
    exact absurd (List.append_eq_nil_iff.mp hdown.symm).1 hpart
  | answered hscript hfits hreply hrest =>
    cases hphase
    simp only at hdown
    subst hdown
    rename_i todo reps rep left
    have hsplit : replies.encode rep = got ++ (part ++ (rest ++ left)) := by
      rw [hreply, List.append_assoc]
    have hne : rest ++ left ≠ [] := fun hnil => hrest (List.append_eq_nil_iff.mp hnil).2
    rcases replies.scan_append hfits hsplit with ⟨hnil, -⟩ | ⟨-, n, hn⟩
    · exact absurd hnil hne
    · rw [hn]
      refine .answered hscript hfits ?_ hrest
      rw [hsplit, List.append_assoc]
  | delivered hscript hfits hreply hne =>
    cases hphase
    simp only at hdown
    subst hdown
    rcases replies.scan_append hfits hreply with ⟨rfl, hn⟩ | ⟨hrest, n, hn⟩
    · rw [hn]
      exact .idle hscript
    · rw [hn]
      refine .delivered hscript hfits ?_ hrest
      rw [hreply, List.append_assoc]

theorem Coherent.die (h : Coherent requests replies script c l act hs as) {arrives lost : List α}
    (hup : l.up = arrives ++ lost) :
    Coherent requests replies script { c with phase := .gone } { l with up := arrives } act hs as := by
  cases h with
  | idle hscript =>
    obtain ⟨rfl, rfl⟩ := List.append_eq_nil_iff.mp hup.symm
    exact .unanswered hscript (.inl rfl)
  | sending hscript hrequest hrest =>
    simp only at hup
    subst hup
    rw [List.append_assoc] at hrequest
    exact .unanswered hscript (.inr ⟨_, _, _, rfl, hrequest⟩)
  | waiting hscript hrequest hne =>
    simp only at hup
    subst hup
    exact .unanswered hscript (.inr ⟨_, _, _, rfl, hrequest⟩)
  | answered hscript hfits hreply hrest =>
    obtain ⟨rfl, rfl⟩ := List.append_eq_nil_iff.mp hup.symm
    exact .unheard hscript (.inr ⟨_, rfl⟩)
  | delivered hscript hfits hreply hdown =>
    obtain ⟨rfl, rfl⟩ := List.append_eq_nil_iff.mp hup.symm
    exact .unheard hscript (.inl rfl)
  | unanswered hscript hpart =>
    simp only at hup
    subst hup
    refine .unanswered hscript ?_
    rcases hpart with hnil | ⟨r, later', lost', hlater, hrequest⟩
    · left
      rw [← List.append_assoc] at hnil
      exact (List.append_eq_nil_iff.mp hnil).1
    · right
      rw [List.append_assoc] at hrequest
      exact ⟨r, later', _, hlater, hrequest⟩
  | unheard hscript hact =>
    obtain ⟨rfl, rfl⟩ := List.append_eq_nil_iff.mp hup.symm
    exact .unheard hscript hact

theorem Coherent.read {got part rest : List α}
    (h : Coherent requests replies script c l (.reading got) hs as)
    (hfits : ∀ r ∈ script, requests.Fits r) (hup : l.up = part ++ rest) (hpart : part ≠ []) :
    ((∃ n, requests.scan (got ++ part) = .more n) ∧
      Coherent requests replies script c { l with up := rest } (.reading (got ++ part)) hs as) ∨
    ∃ r, requests.scan (got ++ part) = .got r ∧ ∀ rep, replies.Fits rep →
      Coherent requests replies script c { l with up := rest } (.writing (replies.encode rep))
        (hs ++ [r]) (as ++ [rep]) := by
  cases h with
  | idle => exact absurd (List.append_eq_nil_iff.mp hup.symm).1 hpart
  | delivered => exact absurd (List.append_eq_nil_iff.mp hup.symm).1 hpart
  | unheard => exact absurd (List.append_eq_nil_iff.mp hup.symm).1 hpart
  | sending hscript hrequest hrest =>
    simp only at hup
    subst hup
    rename_i todo r left
    rw [List.append_assoc] at hrequest
    have hne : rest ++ left ≠ [] := fun hnil => hrest (List.append_eq_nil_iff.mp hnil).2
    rcases requests.scan_append (hfits r (by simp [hscript])) hrequest with ⟨hnil, -⟩ | ⟨-, hmore⟩
    · exact absurd hnil hne
    · left
      refine ⟨hmore, .sending hscript ?_ hrest⟩
      rw [hrequest, List.append_assoc]
  | waiting hscript hrequest hne =>
    simp only at hup
    subst hup
    rename_i todo r
    rcases requests.scan_append (hfits r (by simp [hscript])) hrequest with ⟨rfl, hgot⟩ | ⟨hrest, hmore⟩
    · right
      refine ⟨r, hgot, fun rep hrep => .answered ?_ hrep rfl (replies.encode_ne_nil hrep)⟩
      rw [hscript, List.append_assoc]
      rfl
    · left
      refine ⟨hmore, .waiting hscript ?_ hrest⟩
      rw [hrequest, List.append_assoc]
  | unanswered hscript hcut =>
    simp only at hup
    subst hup
    rcases hcut with hnil | ⟨r, later', lost, rfl, hrequest⟩
    · have hboth := (List.append_eq_nil_iff.mp hnil).2
      exact absurd (List.append_eq_nil_iff.mp hboth).1 hpart
    · rw [List.append_assoc] at hrequest
      rcases requests.scan_append (hfits r (by simp [hscript])) hrequest with ⟨hnil, hgot⟩ | ⟨-, hmore⟩
      · right
        obtain ⟨rfl, rfl⟩ := List.append_eq_nil_iff.mp hnil
        have hscript' : script = (hs ++ [r]) ++ later' := by
          rw [hscript, List.append_assoc]
          rfl
        exact ⟨r, hgot, fun rep hrep => .unheard hscript' (.inr ⟨_, rfl⟩)⟩
      · left
        refine ⟨hmore, .unanswered hscript (.inr ⟨r, later', lost, rfl, ?_⟩)⟩
        rw [hrequest, List.append_assoc]

theorem Coherent.readEnd {got : List α}
    (h : Coherent requests replies script c l (.reading got) hs as) (hphase : c.phase = .gone)
    (hup : l.up = []) : Coherent requests replies script c l (.reading []) hs as := by
  cases h with
  | idle | sending | waiting | delivered => cases hphase
  | unanswered hscript hpart =>
    simp only at hup
    subst hup
    exact .unanswered hscript (.inl rfl)
  | unheard hscript hact => exact .unheard hscript (.inl rfl)

theorem Coherent.write {part rest : List α}
    (h : Coherent requests replies script c l (.writing (part ++ rest)) hs as) (hpart : part ≠ []) :
    Coherent requests replies script c { l with down := l.down ++ part }
      (if rest.isEmpty then .reading [] else .writing rest) hs as := by
  cases h with
  | answered hscript hfits hreply hrest =>
    rw [← List.append_assoc _ part] at hreply
    cases rest with
    | nil =>
      rw [List.append_nil] at hreply
      refine .delivered hscript hfits hreply fun hnil => hpart ?_
      exact (List.append_eq_nil_iff.mp hnil).2
    | cons u rest => exact .answered hscript hfits hreply (List.cons_ne_nil u rest)
  | unheard hscript hact =>
    refine .unheard hscript ?_
    cases rest with
    | nil => exact .inl rfl
    | cons u rest => exact .inr ⟨_, rfl⟩

theorem Coherent.writeFails {rest : List α}
    (h : Coherent requests replies script c l (.writing rest) hs as) (hphase : c.phase = .gone) :
    Coherent requests replies script c l (.reading []) hs as := by
  cases h with
  | answered => cases hphase
  | unheard hscript hact => exact .unheard hscript (.inl rfl)

theorem Coherent.progress (h : Coherent requests replies script c l act hs as) :
    hs <+: script ∧ c.replies <+: as ∧ as.length ≤ c.replies.length + 1 := by
  cases h with
  | idle hscript => exact ⟨⟨_, hscript.symm⟩, List.prefix_refl _, Nat.le_succ _⟩
  | sending hscript => exact ⟨⟨_, hscript.symm⟩, List.prefix_refl _, Nat.le_succ _⟩
  | waiting hscript => exact ⟨⟨_, hscript.symm⟩, List.prefix_refl _, Nat.le_succ _⟩
  | answered hscript => exact ⟨⟨_, hscript.symm⟩, List.prefix_append _ _, by simp⟩
  | delivered hscript => exact ⟨⟨_, hscript.symm⟩, List.prefix_append _ _, by simp⟩
  | unanswered hscript => exact ⟨⟨_, hscript.symm⟩, List.prefix_refl _, Nat.le_succ _⟩
  | unheard hscript => exact ⟨⟨_, hscript.symm⟩, List.prefix_append _ _, by simp⟩

end Coherent

/-! ### The whole system -/

section Inv

variable {α ι σ Req Rep : Type u} [DecidableEq ι] (net : Network α ι σ Req Rep)

/-- The connection is open, and the server will read from it again. -/
def Network.isOpen (s : System α ι σ Req Rep) : Bool :=
  match s.serving with
  | none => false
  | some (_, .reading _) => true
  | some (_, .writing _) => net.server.stays s.server

/-- The server has conducted the sessions `past`, and fits together with every client. -/
structure Inv (c₀ : σ) (script : ι → List Req) (s : System α ι σ Req Rep)
    (past : List (Record ι Req Rep)) : Prop where
  conducted : Conducted net.server c₀ past (net.isOpen s) s.server
  current : ∀ i act, s.serving = some (i, act) → ∃ front ses, past = front ++ [ses] ∧ ses.client = i
  accepted : s.accepted = past.map (·.client)
  nodup : (past.map (·.client)).Nodup
  clients : ∀ i, ¬net.foreign i → Coherent net.requests net.replies (script i) (s.client i) (s.link i)
    (s.activity i) (handled past i) (answered past i)

/-- The system before anything has happened. -/
def Network.start (_ : Network α ι σ Req Rep) (c₀ : σ) (script : ι → List Req) :
    System α ι σ Req Rep :=
  { server := c₀, client := fun i => .fresh (script i) }

variable {net} {c₀ : σ} {script : ι → List Req} {s : System α ι σ Req Rep}
  {past : List (Record ι Req Rep)}

theorem inv_start (net : Network α ι σ Req Rep) (c₀ : σ) (script : ι → List Req) :
    Inv net c₀ script (net.start c₀ script) [] :=
  ⟨.start, fun _ _ h => (by cases h), rfl, List.nodup_nil, fun _ _ => coherent_fresh⟩

theorem System.activity_of_ne {i j : ι} (h : ∀ k act, s.serving = some (k, act) → k = i)
    (hj : j ≠ i) : s.activity j = .reading [] := by
  unfold System.activity
  cases hserving : s.serving with
  | none => rfl
  | some x => exact if_neg fun hx => hj (hx.symm.trans (h x.1 x.2 hserving))

theorem System.activity_self {i : ι} {act : Activity α} (h : s.serving = some (i, act)) :
    s.activity i = act := by
  unfold System.activity
  rw [h]
  exact if_pos rfl

theorem Inv.put (h : Inv net c₀ script s past) (i : ι) {c : Client α Req Rep} {l : Link α}
    (hi : ¬net.foreign i → Coherent net.requests net.replies (script i) c l (s.activity i)
      (handled past i) (answered past i)) : Inv net c₀ script (s.put i c l) past := by
  refine ⟨h.conducted, h.current, h.accepted, h.nodup, fun j hj => ?_⟩
  show Coherent _ _ _ (Function.update s.client i c j) (Function.update s.link i l j)
    (s.activity j) _ _
  by_cases hji : j = i
  · subst hji
    rw [Function.update_self, Function.update_self]
    exact hi hj
  · rw [Function.update_of_ne hji, Function.update_of_ne hji]
    exact h.clients j hj

theorem Inv.advance (h : Inv net c₀ script s past) {i : ι} {c : σ} {l : Link α}
    {serving : Option (ι × Activity α)} {past' : List (Record ι Req Rep)}
    (hserving : ∀ j act, s.serving = some (j, act) → j = i)
    (hserving' : ∀ j act, serving = some (j, act) → j = i)
    (hconducted : Conducted net.server c₀ past'
      (net.isOpen ((s.put i (s.client i) l).become c serving)) c)
    (hcurrent : ∀ j act, serving = some (j, act) → ∃ front ses, past' = front ++ [ses] ∧ ses.client = j)
    (hpast : past'.map (·.client) = past.map (·.client))
    (hothers : ∀ j, j ≠ i → handled past' j = handled past j ∧ answered past' j = answered past j)
    (hi : ¬net.foreign i → Coherent net.requests net.replies (script i) (s.client i) l
      ((s.become c serving).activity i) (handled past' i) (answered past' i)) :
    Inv net c₀ script ((s.put i (s.client i) l).become c serving) past' := by
  refine ⟨hconducted, hcurrent, h.accepted.trans hpast.symm, hpast ▸ h.nodup, fun j hj => ?_⟩
  show Coherent _ _ _ (Function.update s.client i (s.client i) j) (Function.update s.link i l j)
    ((s.become c serving).activity j) _ _
  rw [Function.update_eq_self]
  by_cases hji : j = i
  · subst hji
    rw [Function.update_self]
    exact hi hj
  · rw [Function.update_of_ne hji, System.activity_of_ne hserving' hji, (hothers j hji).1,
      (hothers j hji).2, ← System.activity_of_ne hserving hji]
    exact h.clients j hj

omit [DecidableEq ι] in
theorem only_current {i : ι} {act : Activity α} (h : s.serving = some (i, act)) :
    ∀ j act', s.serving = some (j, act') → j = i := by
  intro j act' hj
  rw [h] at hj
  cases hj
  rfl

theorem put_link_self (s : System α ι σ Req Rep) (i : ι) :
    s.put i (s.client i) (s.link i) = s := by
  unfold System.put
  rw [Function.update_eq_self, Function.update_eq_self]

theorem Inv.remain (h : Inv net c₀ script s past) {i : ι} {act act' : Activity α} {l : Link α}
    (hserving : s.serving = some (i, act))
    (hopen : net.isOpen ((s.put i (s.client i) l).become s.server (some (i, act'))) = net.isOpen s)
    (hi : ¬net.foreign i → Coherent net.requests net.replies (script i) (s.client i) l act'
      (handled past i) (answered past i)) :
    Inv net c₀ script ((s.put i (s.client i) l).become s.server (some (i, act'))) past := by
  have hcurrent (j : ι) (act'' : Activity α) (hj : some (i, act') = some (j, act'')) :
      ∃ front ses, past = front ++ [ses] ∧ ses.client = j := by
    cases hj
    exact h.current i act hserving
  refine h.advance (only_current hserving) (fun j act'' hj => by cases hj; rfl) ?_ hcurrent rfl
    (fun _ _ => ⟨rfl, rfl⟩) fun hforeign => ?_
  · rw [hopen]
    exact h.conducted
  · rw [System.activity_self (s := s.become _ _) rfl]
    exact hi hforeign

theorem Inv.finish (h : Inv net c₀ script s past) {i : ι} {act : Activity α} {c : σ} {l : Link α}
    (hserving : s.serving = some (i, act)) (hconducted : Conducted net.server c₀ past false c)
    (hi : ¬net.foreign i → Coherent net.requests net.replies (script i) (s.client i) l (.reading [])
      (handled past i) (answered past i)) :
    Inv net c₀ script ((s.put i (s.client i) l).become c none) past :=
  h.advance (only_current hserving) (fun _ _ hj => by cases hj) hconducted
    (fun _ _ hj => by cases hj) rfl (fun _ _ => ⟨rfl, rfl⟩) hi

theorem Inv.handle (h : Inv net c₀ script s past) {i : ι} {got : List α} {r : Req} {l : Link α}
    (hserving : s.serving = some (i, .reading got))
    (hi : ¬net.foreign i → Coherent net.requests net.replies (script i) (s.client i) l
      (.writing (net.replies.encode (net.server.handle s.server r).2)) (handled past i ++ [r])
      (answered past i ++ [(net.server.handle s.server r).2])) :
    ∃ past', Inv net c₀ script ((s.put i (s.client i) l).become (net.server.handle s.server r).1
      (some (i, .writing (net.replies.encode (net.server.handle s.server r).2)))) past' := by
  obtain ⟨front, ses, rfl, hses⟩ := h.current i _ hserving
  have hopen : net.isOpen s = true := by
    unfold Network.isOpen
    rw [hserving]
  have hconducted := h.conducted
  rw [hopen] at hconducted
  let ses' : Record ι Req Rep :=
    { ses with
      requests := ses.requests ++ [r]
      replies := ses.replies ++ [(net.server.handle s.server r).2] }
  refine ⟨front ++ [ses'], h.advance (only_current hserving) (fun j act hj => by cases hj; rfl)
    (hconducted.handle r) (fun j act hj => ?_) (by simp [ses']) (fun j hj => ?_) fun hforeign => ?_⟩
  · cases hj
    exact ⟨front, ses', rfl, hses⟩
  · have hne : ses.client ≠ j := fun heq => hj (heq ▸ hses)
    simp only [handled_append, answered_append, ses', if_neg hne, and_self]
  · have hmine := hi hforeign
    simp only [handled_append, answered_append, ses', if_pos hses, List.append_assoc] at hmine ⊢
    rw [System.activity_self (s := s.become _ _) rfl]
    exact hmine

theorem Inv.accept (h : Inv net c₀ script s past) {i : ι} (hserving : s.serving = none)
    (hlistens : net.server.listens s.server = true) (hnew : i ∉ s.accepted) :
    Inv net c₀ script { s.become (net.server.accept s.server) (some (i, .reading [])) with
      accepted := s.accepted ++ [i] } (past ++ [{ client := i }]) := by
  have hclosed : net.isOpen s = false := by
    unfold Network.isOpen
    rw [hserving]
  have hconducted := h.conducted
  rw [hclosed] at hconducted
  rw [h.accepted] at hnew
  have hnone (j : ι) : handled (past ++ [{ client := i }]) j = handled past j ∧
      answered (past ++ [{ client := i }]) j = answered past j := by
    simp only [handled_append, answered_append, ite_self, List.append_nil, and_self]
  refine ⟨hconducted.accept i hlistens, fun j act hj => ?_, ?_, ?_, fun j hj => ?_⟩
  · cases hj
    exact ⟨past, { client := i }, rfl, rfl⟩
  · show s.accepted ++ [i] = _
    rw [h.accepted, List.map_append, List.map_singleton]
  · rw [List.map_append, List.map_singleton]
    refine List.nodup_append.mpr ⟨h.nodup, List.nodup_singleton i, fun a ha b hb hab => hnew ?_⟩
    have hbi : b = i := List.mem_singleton.mp hb
    rwa [← hbi, ← hab]
  · have hidle : s.activity j = .reading [] := by
      unfold System.activity
      rw [hserving]
    have hserved : (s.become (net.server.accept s.server) (some (i, .reading []))).activity j =
        .reading [] := by
      unfold System.activity System.become
      simp only
      exact ite_self _
    show Coherent _ _ _ (s.client j) (s.link j)
      ((s.become (net.server.accept s.server) (some (i, .reading []))).activity j) _ _
    rw [hserved, (hnone j).1, (hnone j).2, ← hidle]
    exact h.clients j hj

theorem Inv.next (h : Inv net c₀ script s past) {i : ι} {rest : List α} {l : Link α}
    (hserving : s.serving = some (i, .writing rest))
    (hi : ¬net.foreign i → Coherent net.requests net.replies (script i) (s.client i) l (.reading [])
      (handled past i) (answered past i)) :
    Inv net c₀ script ((s.put i (s.client i) l).become s.server (net.next s.server i)) past := by
  have hopen : net.isOpen s = net.server.stays s.server := by
    unfold Network.isOpen
    rw [hserving]
  unfold Network.next
  by_cases hstays : net.server.stays s.server = true
  · rw [if_pos hstays]
    refine h.remain hserving ?_ hi
    rw [hopen, hstays]
    rfl
  · have hconducted := h.conducted
    rw [hopen, Bool.eq_false_iff.mpr hstays] at hconducted
    rw [if_neg hstays]
    exact h.finish hserving hconducted hi

/-- What the clients and the server can write. -/
structure Writable (net : Network α ι σ Req Rep) (script : ι → List Req) : Prop where
  requests : ∀ i, ¬net.foreign i → ∀ r ∈ script i, net.requests.Fits r
  replies : ∀ c r, net.replies.Fits (net.server.handle c r).2

theorem inv_step (hw : Writable net script) (h : Inv net c₀ script s past)
    {s' : System α ι σ Req Rep} (hstep : Step net s s') : ∃ past', Inv net c₀ script s' past' := by
  cases hstep with
  | call hphase htodo =>
    exact ⟨past, h.put _ fun hi => (h.clients _ hi).call (hw.requests _ hi) hphase htodo⟩
  | send hphase hpart => exact ⟨past, h.put _ fun hi => (h.clients _ hi).send hphase hpart⟩
  | receive hphase hscan hdown hpart hlen =>
    exact ⟨past, h.put _ fun hi => (h.clients _ hi).receive hphase hdown hpart⟩
  | @leave i hphase htodo =>
    refine ⟨past, h.put i fun hi => ?_⟩
    have hup : (s.link i).up = (s.link i).up ++ [] := (List.append_nil _).symm
    exact (h.clients i hi).die hup
  | die hphase hup => exact ⟨past, h.put _ fun hi => (h.clients _ hi).die hup⟩
  | inject units hforeign hphase => exact ⟨past, h.put _ fun hi => absurd hforeign hi⟩
  | @accept i hserving hlistens hnew => exact ⟨_, h.accept hserving hlistens hnew⟩
  | giveUp hserving hlistens =>
    have hclosed : net.isOpen s = false := by
      unfold Network.isOpen
      rw [hserving]
    have hconducted := h.conducted
    rw [hclosed] at hconducted
    refine ⟨past, hconducted.giveUp hlistens, fun _ _ hj => (by cases hj), h.accepted, h.nodup,
      fun j hj => ?_⟩
    have hidle : s.activity j = .reading [] := by
      unfold System.activity
      rw [hserving]
    show Coherent _ _ _ (s.client j) (s.link j) (.reading []) _ _
    rw [← hidle]
    exact h.clients j hj
  | @read i got part rest n hserving hscan hup hpart hlen =>
    have hact := System.activity_self hserving
    have hread (hi : ¬net.foreign i) := Coherent.read (hact ▸ h.clients i hi) (hw.requests i hi) hup
      hpart
    cases hnext : net.requests.scan (got ++ part) with
    | more k =>
      refine ⟨past, h.remain hserving ?_ fun hi => ?_⟩
      · unfold Network.isOpen
        rw [hserving]
        rfl
      · rcases hread hi with ⟨-, hcoh⟩ | ⟨r, hr, -⟩
        · exact hcoh
        · rw [hnext] at hr
          cases hr
    | got r =>
      refine h.handle hserving fun hi => ?_
      rcases hread hi with ⟨⟨k, hk⟩, -⟩ | ⟨r', hr', hcoh⟩
      · rw [hnext] at hk
        cases hk
      · rw [hnext] at hr'
        cases hr'
        exact hcoh _ (hw.replies _ _)
    | bad =>
      have hopen : net.isOpen s = true := by
        unfold Network.isOpen
        rw [hserving]
      have hconducted := h.conducted
      rw [hopen] at hconducted
      refine ⟨past, h.finish hserving hconducted.hangUp fun hi => ?_⟩
      rcases hread hi with ⟨⟨k, hk⟩, -⟩ | ⟨r', hr', -⟩
      · rw [hnext] at hk
        cases hk
      · rw [hnext] at hr'
        cases hr'
  | @readEnd i got hserving hphase hup =>
    have hact := System.activity_self hserving
    have hopen : net.isOpen s = true := by
      unfold Network.isOpen
      rw [hserving]
    have hconducted := h.conducted
    rw [hopen] at hconducted
    refine ⟨past, ?_⟩
    have hfinish := h.finish (l := s.link i) hserving hconducted.hangUp fun hi =>
      (hact ▸ h.clients i hi).readEnd hphase hup
    rwa [put_link_self] at hfinish
  | @write i part rest hserving hpart =>
    have hact := System.activity_self hserving
    refine ⟨past, ?_⟩
    have hwrite (hi : ¬net.foreign i) := (hact ▸ h.clients i hi).write hpart
    cases rest with
    | nil => exact h.next hserving hwrite
    | cons u rest =>
      refine h.remain hserving ?_ hwrite
      unfold Network.isOpen
      rw [hserving]
      rfl
  | @writeFails i rest hserving hphase =>
    have hact := System.activity_self hserving
    refine ⟨past, ?_⟩
    have hnext := h.next (l := s.link i) hserving fun hi =>
      (hact ▸ h.clients i hi).writeFails hphase
    rwa [put_link_self] at hnext

theorem inv_steps (hw : Writable net script)
    (h : Steps net (net.start c₀ script) s) : ∃ past, Inv net c₀ script s past := by
  induction h with
  | refl => exact ⟨[], inv_start net c₀ script⟩
  | tail _ hstep ih =>
    obtain ⟨past, hinv⟩ := ih
    exact inv_step hw hinv hstep

/-- **Sessions are served one after the other.** However the steps interleave, the server is in the
state that it gets to by conducting some sessions in sequence, at most one for each client; what it
has handled of a client comes first in the list of the client, and the client has had the replies to
it but for at most the last. -/
theorem served_in_order (hw : Writable net script) (h : Steps net (net.start c₀ script) s) :
    ∃ past isOpen, Conducted net.server c₀ past isOpen s.server ∧ (past.map (·.client)).Nodup ∧
      ∀ i, ¬net.foreign i → handled past i <+: script i ∧ (s.client i).replies <+: answered past i ∧
        (answered past i).length ≤ (s.client i).replies.length + 1 := by
  obtain ⟨past, hinv⟩ := inv_steps hw h
  exact ⟨past, _, hinv.conducted, hinv.nodup, fun i hi => (hinv.clients i hi).progress⟩

end Inv

end Session
