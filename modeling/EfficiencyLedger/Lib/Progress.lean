import EfficiencyLedger.Lib.Session

/-!
# Sessions can be completed

No interleaving leads the parties into a state where they wait for each other: a client that is neither
foreign nor gone can still get the reply to every request of its list, through steps of its own and of the
server (`can_complete`), and so can every other client that waits to be accepted (`can_complete_all`).
The phases of one request (`send_all`, `read_all`, `write_all`, `receive_all`) are played to their end
one after the other.
-/

universe u

namespace Session

open Relation

variable {α ι σ Req Rep : Type u} [DecidableEq ι] {net : Network α ι σ Req Rep}

/-! ### One client and the server -/

/-- The system with another client, link and server. -/
def System.at (s : System α ι σ Req Rep) (i : ι) (c : Client α Req Rep) (l : Link α) (srv : σ)
    (serving : Option (ι × Activity α)) : System α ι σ Req Rep :=
  (s.put i c l).become srv serving

section At

variable (s : System α ι σ Req Rep) (i : ι) (c c' : Client α Req Rep) (l l' : Link α) (srv srv' : σ)
  (serving serving' : Option (ι × Activity α))

theorem System.at_self : s.at i (s.client i) (s.link i) s.server s.serving = s := by
  unfold System.at System.put System.become
  rw [Function.update_eq_self, Function.update_eq_self]

theorem System.at_at :
    (s.at i c l srv serving).at i c' l' srv' serving' = s.at i c' l' srv' serving' := by
  unfold System.at System.put System.become
  simp only [Function.update_idem]

theorem System.at_put : (s.at i c l srv serving).put i c' l' = s.at i c' l' srv serving :=
  System.at_at s i c c' l l' srv srv serving serving

@[simp]
theorem System.at_client : (s.at i c l srv serving).client i = c := Function.update_self ..

@[simp]
theorem System.at_link : (s.at i c l srv serving).link i = l := Function.update_self ..

@[simp]
theorem System.at_client_of_ne {j : ι} (h : j ≠ i) : (s.at i c l srv serving).client j = s.client j :=
  Function.update_of_ne h ..

end At

section Phases

variable {s : System α ι σ Req Rep} {i : ι} {todo : List Req} {reps : List Rep} {srv : σ}
  {serving : Option (ι × Activity α)} {up down : List α}

theorem start_call (r : Req) : Step net (s.at i ⟨r :: todo, .idle, reps⟩ ⟨up, down⟩ srv serving)
    (s.at i ⟨todo, .sending (net.requests.encode r), reps⟩ ⟨up, down⟩ srv serving) := by
  have htodo : ((s.at i ⟨r :: todo, .idle, reps⟩ ⟨up, down⟩ srv serving).client i).todo =
      r :: todo := by rw [System.at_client]
  have hstep : Step net (s.at i ⟨r :: todo, .idle, reps⟩ ⟨up, down⟩ srv serving) _ :=
    .call (by rw [System.at_client]) htodo
  rw [System.at_put, System.at_client, System.at_link] at hstep
  exact hstep

theorem send_all {rest : List α} (hrest : rest ≠ []) :
    Step net (s.at i ⟨todo, .sending rest, reps⟩ ⟨up, down⟩ srv serving)
      (s.at i ⟨todo, .receiving [], reps⟩ ⟨up ++ rest, down⟩ srv serving) := by
  have hphase : ((s.at i ⟨todo, .sending rest, reps⟩ ⟨up, down⟩ srv serving).client i).phase =
      .sending (rest ++ []) := by rw [System.at_client, List.append_nil]
  have hstep : Step net (s.at i ⟨todo, .sending rest, reps⟩ ⟨up, down⟩ srv serving) _ :=
    .send hphase hrest
  rw [System.at_put, System.at_client, System.at_link] at hstep
  exact hstep

theorem read_all {r : Req} (hfits : net.requests.Fits r) {c : Client α Req Rep} (n : Nat) :
    ∀ {got up : List α}, up.length ≤ n → up ≠ [] → net.requests.encode r = got ++ up →
      Steps net (s.at i c ⟨up, down⟩ srv (some (i, .reading got)))
        (s.at i c ⟨[], down⟩ (net.server.handle srv r).1
          (some (i, .writing (net.replies.encode (net.server.handle srv r).2)))) := by
  induction n with
  | zero =>
    intro got up hlen hup
    exact absurd (List.length_eq_zero_iff.mp (Nat.le_zero.mp hlen)) hup
  | succ n ih =>
    intro got up hlen hup hrequest
    obtain ⟨k, hk, hle⟩ := net.requests.scan_part hfits hrequest hup
    have hpos := net.requests.more_pos hk
    have hpart : up.take k ≠ [] := by
      intro hnil
      have hzero := congrArg List.length hnil
      rw [List.length_take, List.length_nil] at hzero
      omega
    have hup' : ((s.at i c ⟨up, down⟩ srv (some (i, .reading got))).link i).up =
        up.take k ++ up.drop k := by rw [System.at_link, List.take_append_drop]
    have hstep : Step net (s.at i c ⟨up, down⟩ srv (some (i, .reading got))) _ :=
      .read rfl hk hup' hpart (List.length_take_le _ _)
    rw [System.at_put, System.at_client, System.at_link] at hstep
    have hsplit : net.requests.encode r = got ++ (up.take k ++ up.drop k) := by
      rw [List.take_append_drop, hrequest]
    rcases net.requests.scan_append hfits hsplit with ⟨hnil, hgot⟩ | ⟨hrest, m, hmore⟩
    · rw [hgot, hnil] at hstep
      exact .single hstep
    · rw [hmore] at hstep
      have hnext : (up.drop k).length ≤ n := by
        rw [List.length_drop]
        omega
      refine .head hstep (ih hnext hrest ?_)
      rw [hsplit, List.append_assoc]

theorem write_all {c : Client α Req Rep} {rest : List α} (hrest : rest ≠ []) :
    Step net (s.at i c ⟨up, down⟩ srv (some (i, .writing rest)))
      (s.at i c ⟨up, down ++ rest⟩ srv (net.next srv i)) := by
  have hserving : (s.at i c ⟨up, down⟩ srv (some (i, .writing rest))).serving =
      some (i, .writing (rest ++ [])) := by
    rw [List.append_nil]
    rfl
  have hstep : Step net (s.at i c ⟨up, down⟩ srv (some (i, .writing rest))) _ :=
    .write hserving hrest
  rw [System.at_put, System.at_client, System.at_link] at hstep
  exact hstep

theorem receive_all {rep : Rep} (hfits : net.replies.Fits rep) (n : Nat) :
    ∀ {got down : List α}, down.length ≤ n → down ≠ [] → net.replies.encode rep = got ++ down →
      Steps net (s.at i ⟨todo, .receiving got, reps⟩ ⟨up, down⟩ srv serving)
        (s.at i ⟨todo, .idle, reps ++ [rep]⟩ ⟨up, []⟩ srv serving) := by
  induction n with
  | zero =>
    intro got down hlen hdown
    exact absurd (List.length_eq_zero_iff.mp (Nat.le_zero.mp hlen)) hdown
  | succ n ih =>
    intro got down hlen hdown hreply
    obtain ⟨k, hk, hle⟩ := net.replies.scan_part hfits hreply hdown
    have hpos := net.replies.more_pos hk
    have hpart : down.take k ≠ [] := by
      intro hnil
      have hzero := congrArg List.length hnil
      rw [List.length_take, List.length_nil] at hzero
      omega
    have hdown' : ((s.at i ⟨todo, .receiving got, reps⟩ ⟨up, down⟩ srv serving).link i).down =
        down.take k ++ down.drop k := by rw [System.at_link, List.take_append_drop]
    have hstep : Step net (s.at i ⟨todo, .receiving got, reps⟩ ⟨up, down⟩ srv serving) _ :=
      .receive (by rw [System.at_client]) hk hdown' hpart (List.length_take_le _ _)
    rw [System.at_put, System.at_client, System.at_link] at hstep
    have hsplit : net.replies.encode rep = got ++ (down.take k ++ down.drop k) := by
      rw [List.take_append_drop, hreply]
    rcases net.replies.scan_append hfits hsplit with ⟨hnil, hgot⟩ | ⟨hrest, m, hmore⟩
    · rw [hgot, hnil] at hstep
      exact .single hstep
    · rw [hmore] at hstep
      have hnext : (down.drop k).length ≤ n := by
        rw [List.length_drop]
        omega
      refine .head hstep (ih hnext hrest ?_)
      rw [hsplit, List.append_assoc]

end Phases

/-! ### One session -/

/-- The server is there for the next client whenever a session is over, and a request that is polite
does not end one. `Open` says of its state that it serves a connection. -/
structure Serviceable (srv : Server σ Req Rep) (Open : σ → Prop) (Polite : Req → Prop) : Prop where
  accept : ∀ c, srv.listens c = true → Open (srv.accept c)
  handle : ∀ c r, Open c → Polite r → Open (srv.handle c r).1
  stays : ∀ c, Open c → srv.stays c = true
  hangUp : ∀ c, Open c → srv.listens (srv.hangUp c) = true

section Session

variable {Open : σ → Prop} {Polite : Req → Prop} {s : System α ι σ Req Rep} {i : ι}

omit [DecidableEq ι] in
theorem next_of_open (hsrv : Serviceable net.server Open Polite) {c : σ} (h : Open c) :
    net.next c i = some (i, .reading []) :=
  if_pos (hsrv.stays c h)

variable (hsrv : Serviceable net.server Open Polite)
include hsrv

theorem deliver {rep : Rep} (hfits : net.replies.Fits rep) {c : σ} (hc : Open c) {todo : List Req}
    {reps : List Rep} {got down rest : List α} (hrest : rest ≠ [])
    (hreply : net.replies.encode rep = got ++ (down ++ rest)) :
    Steps net (s.at i ⟨todo, .receiving got, reps⟩ ⟨[], down⟩ c (some (i, .writing rest)))
      (s.at i ⟨todo, .idle, reps ++ [rep]⟩ {} c (some (i, .reading []))) := by
  have hdown : down ++ rest ≠ [] := fun hnil => hrest (List.append_eq_nil_iff.mp hnil).2
  have hwrite : Step net (s.at i ⟨todo, .receiving got, reps⟩ ⟨[], down⟩ c (some (i, .writing rest))) _ :=
    write_all hrest
  rw [next_of_open hsrv hc] at hwrite
  exact .head hwrite (receive_all hfits _ (Nat.le_refl _) hdown hreply)

variable (hreplies : ∀ c r, net.replies.Fits (net.server.handle c r).2)
include hreplies

theorem answer {r : Req} (hr : net.requests.Fits r) (hpolite : Polite r) {c : σ} (hc : Open c)
    {todo : List Req} {reps : List Rep} {got up : List α} (hup : up ≠ [])
    (hrequest : net.requests.encode r = got ++ up) :
    Steps net (s.at i ⟨todo, .receiving [], reps⟩ ⟨up, []⟩ c (some (i, .reading got)))
      (s.at i ⟨todo, .idle, reps ++ [(net.server.handle c r).2]⟩ {} (net.server.handle c r).1
        (some (i, .reading []))) := by
  have hread : Steps net (s.at i ⟨todo, .receiving [], reps⟩ ⟨up, []⟩ c (some (i, .reading got))) _ :=
    read_all hr _ (Nat.le_refl _) hup hrequest
  exact hread.trans (deliver hsrv (hreplies c r) (hsrv.handle c r hc hpolite)
    (net.replies.encode_ne_nil (hreplies c r)) rfl)

theorem finish (todo : List Req) : ∀ {c : σ} (reps : List Rep), Open c →
    (∀ r ∈ todo, net.requests.Fits r ∧ Polite r) → ∃ reps' c', Open c' ∧
      reps'.length = reps.length + todo.length ∧
      Steps net (s.at i ⟨todo, .idle, reps⟩ {} c (some (i, .reading [])))
        (s.at i ⟨[], .gone, reps'⟩ {} (net.server.hangUp c') none) := by
  induction todo with
  | nil =>
    intro c reps hc _
    have hleave : Step net (s.at i ⟨[], .idle, reps⟩ {} c (some (i, .reading []))) _ :=
      .leave (i := i) (by rw [System.at_client]) (by rw [System.at_client])
    rw [System.at_put, System.at_client, System.at_link] at hleave
    have hend : Step net (s.at i ⟨[], .gone, reps⟩ {} c (some (i, .reading []))) _ :=
      .readEnd rfl (by rw [System.at_client]) (by rw [System.at_link])
    exact ⟨reps, c, hc, rfl, .tail (.single hleave) hend⟩
  | cons r todo ih =>
    intro c reps hc htodo
    obtain ⟨hr, hpolite⟩ := htodo r (by simp)
    have hne := net.requests.encode_ne_nil hr
    obtain ⟨reps', c', hopen, hlen, hrest⟩ := ih (reps ++ [(net.server.handle c r).2])
      (hsrv.handle c r hc hpolite) fun x hx => htodo x (by simp [hx])
    refine ⟨reps', c', hopen, ?_, .head (start_call r) (.head (send_all hne) (.trans ?_ hrest))⟩
    · rw [hlen, List.length_append, List.length_singleton, List.length_cons]
      omega
    · exact answer hsrv hreplies hr hpolite hc hne rfl

theorem settle {script hs : List Req} {as : List Rep} {cl : Client α Req Rep} {l : Link α} {c : σ}
    {act : Activity α} (hcoh : Coherent net.requests net.replies script cl l act hs as) (hc : Open c)
    (halive : cl.phase ≠ .gone) (hlen : hs.length = as.length)
    (hscript : ∀ r ∈ script, net.requests.Fits r ∧ Polite r) :
    ∃ todo reps c', Open c' ∧ reps.length + todo.length = script.length ∧ (∀ r ∈ todo, r ∈ script) ∧
      Steps net (s.at i cl l c (some (i, act)))
        (s.at i ⟨todo, .idle, reps⟩ {} c' (some (i, .reading []))) := by
  have hlater {todo : List Req} {r : Req} (h : script = hs ++ r :: todo) (rep : Rep) :
      (as ++ [rep]).length + todo.length = script.length ∧ (∀ x ∈ todo, x ∈ script) ∧
        net.requests.Fits r ∧ Polite r := by
    refine ⟨?_, fun x hx => by simp [h, hx], hscript r (by simp [h])⟩
    rw [h, List.length_append, List.length_append, List.length_singleton, List.length_cons]
    omega
  have hdone {todo : List Req} (h : script = hs ++ todo) :
      as.length + todo.length = script.length ∧ ∀ x ∈ todo, x ∈ script := by
    refine ⟨?_, fun x hx => by simp [h, hx]⟩
    rw [h, List.length_append]
    omega
  cases hcoh with
  | @idle todo hs as heq => exact ⟨todo, as, c, hc, (hdone heq).1, (hdone heq).2, .refl⟩
  | @sending todo hs r as got up rest heq hrequest hrest =>
    obtain ⟨hcount, hmem, hr, hpolite⟩ := hlater heq (net.server.handle c r).2
    have hup : up ++ rest ≠ [] := fun hnil => hrest (List.append_eq_nil_iff.mp hnil).2
    exact ⟨todo, _, _, hsrv.handle _ r hc hpolite, hcount, hmem,
      .head (send_all hrest) (answer hsrv hreplies hr hpolite hc hup hrequest)⟩
  | @waiting todo hs r as got up heq hrequest hup =>
    obtain ⟨hcount, hmem, hr, hpolite⟩ := hlater heq (net.server.handle c r).2
    exact ⟨todo, _, _, hsrv.handle _ r hc hpolite, hcount, hmem,
      answer hsrv hreplies hr hpolite hc hup hrequest⟩
  | @answered todo hs reps rep got down rest heq hfits hreply hrest =>
    exact ⟨todo, reps ++ [rep], c, hc, (hdone heq).1, (hdone heq).2,
      deliver hsrv hfits hc hrest hreply⟩
  | @delivered todo hs reps rep got down heq hfits hreply hdown =>
    exact ⟨todo, reps ++ [rep], c, hc, (hdone heq).1, (hdone heq).2,
      receive_all hfits _ (Nat.le_refl _) hdown hreply⟩
  | unanswered => exact absurd rfl halive
  | unheard => exact absurd rfl halive

end Session

/-! ### All sessions -/

theorem serving_invariant {P : σ → Prop} {c₀ : σ} {script : ι → List Req} {s : System α ι σ Req Rep}
    (haccept : ∀ c, net.server.listens c = true → P (net.server.accept c))
    (hhandle : ∀ c r, P c → P (net.server.handle c r).1)
    (h : Steps net (net.start c₀ script) s) : ∀ x, s.serving = some x → P s.server := by
  induction h with
  | refl => exact fun x hx => by cases hx
  | @tail t u _ hstep ih =>
    cases hstep with
    | call | send | receive | leave | die | inject => exact ih
    | accept hserving hlistens hnew => exact fun _ _ => haccept _ hlistens
    | giveUp | readEnd => exact fun x hx => by cases hx
    | @read i got part rest n hserving hscan hup hpart hlen =>
      have hnow := ih _ hserving
      intro x hx
      cases hnext : net.requests.scan (got ++ part) with
      | more k => exact hnow
      | got r => exact hhandle _ r hnow
      | bad =>
        rw [hnext] at hx
        cases hx
    | write hserving hpart => exact fun _ _ => ih _ hserving
    | writeFails hserving hphase => exact fun _ _ => ih _ hserving

omit [DecidableEq ι] in
theorem length_handled {srv : Server σ Req Rep} {c₀ c : σ} {past : List (Record ι Req Rep)}
    {isOpen : Bool} (h : Conducted srv c₀ past isOpen c) :
    ∀ ses ∈ past, ses.requests.length = ses.replies.length := by
  induction h with
  | start => exact fun _ h => by cases h
  | accept i h hlistens ih =>
    intro ses hses
    rcases List.mem_append.mp hses with hold | hnew
    · exact ih ses hold
    · rw [List.mem_singleton.mp hnew]
      rfl
  | @handle past ses c r h ih =>
    intro x hx
    rcases List.mem_append.mp hx with hold | hnew
    · exact ih x (List.mem_append_left _ hold)
    · rw [List.mem_singleton.mp hnew]
      simp only [List.length_append, List.length_singleton, ih ses (by simp)]
  | hangUp h ih => exact ih
  | giveUp h hlistens ih => exact ih

theorem length_handled_eq {srv : Server σ Req Rep} {c₀ c : σ}
    {past : List (Record ι Req Rep)} {isOpen : Bool} (h : Conducted srv c₀ past isOpen c) (i : ι) :
    (handled past i).length = (answered past i).length := by
  unfold handled answered
  rw [List.length_flatMap, List.length_flatMap]
  exact congrArg _ (List.map_congr_left fun ses hses =>
    length_handled h ses (List.mem_of_mem_filter hses))

section Complete

variable {c₀ : σ} {script : ι → List Req} {s : System α ι σ Req Rep} {Open : σ → Prop}
  {Polite : Req → Prop}

/-- The server waits for the next client. -/
structure Ready (net : Network α ι σ Req Rep) (s : System α ι σ Req Rep) : Prop where
  free : s.serving = none
  listens : net.server.listens s.server = true

/-- The client is there, and asks for nothing but what the server can do for it. -/
structure Deserving (net : Network α ι σ Req Rep) (script : ι → List Req) (Polite : Req → Prop)
    (s : System α ι σ Req Rep) (i : ι) : Prop where
  own : ¬net.foreign i
  alive : (s.client i).phase ≠ .gone
  polite : ∀ r ∈ script i, Polite r

theorem can_complete (hw : Writable net script) (hsrv : Serviceable net.server Open Polite)
    (h : Steps net (net.start c₀ script) s) {i : ι} {act : Activity α}
    (hserving : s.serving = some (i, act)) (hopen : Open s.server)
    (hi : Deserving net script Polite s i) :
    ∃ s', Steps net s s' ∧ Ready net s' ∧ (s'.client i).replies.length = (script i).length ∧
      s'.accepted = s.accepted ∧ ∀ j, j ≠ i → s'.client j = s.client j := by
  obtain ⟨past, hinv⟩ := inv_steps hw h
  have hcoh := hinv.clients i hi.own
  rw [System.activity_self hserving] at hcoh
  have hlen := length_handled_eq hinv.conducted i
  have hscript (r : Req) (hr : r ∈ script i) : net.requests.Fits r ∧ Polite r :=
    ⟨hw.requests i hi.own r hr, hi.polite r hr⟩
  have hself : s = s.at i (s.client i) (s.link i) s.server (some (i, act)) := by
    rw [← hserving, System.at_self]
  obtain ⟨todo, reps, c, hc, hcount, hmem, hsettle⟩ :=
    settle (s := s) (i := i) hsrv hw.replies hcoh hopen hi.alive hlen hscript
  obtain ⟨reps', c', hc', hcount', hfinish⟩ := finish (s := s) (i := i) hsrv hw.replies todo reps hc
    fun r hr => hscript r (hmem r hr)
  rw [← hself] at hsettle
  refine ⟨_, hsettle.trans hfinish, ⟨rfl, hsrv.hangUp c' hc'⟩, ?_, rfl, fun j hj => ?_⟩
  · rw [System.at_client, hcount', hcount]
  · rw [System.at_client_of_ne _ _ _ _ _ _ hj]

theorem can_end (hsrv : Serviceable net.server Open Polite) {i : ι} {act : Activity α}
    (hserving : s.serving = some (i, act)) (hopen : Open s.server)
    (halive : (s.client i).phase ≠ .gone) :
    ∃ s', Steps net s s' ∧ Ready net s' ∧ s'.accepted = s.accepted ∧
      ∀ j, j ≠ i → s'.client j = s.client j := by
  -- A client that is still there can be got rid of.
  have hself : s = s.at i (s.client i) (s.link i) s.server (some (i, act)) := by
    rw [← hserving, System.at_self]
  let c : Client α Req Rep := { s.client i with phase := .gone }
  let l : Link α := { s.link i with up := [] }
  have hdie : Step net s (s.at i c l s.server (some (i, act))) := by
    have hstep : Step net s _ := .die (i := i) halive (List.nil_append (s.link i).up).symm
    have hput : s.put i c l = s.at i c l s.server (some (i, act)) := by
      unfold System.at System.become
      rw [← hserving]
      rfl
    rw [← hput]
    exact hstep
  have hend : Step net (s.at i c l s.server (some (i, .reading []))) _ :=
    .readEnd rfl (by rw [System.at_client]) (by rw [System.at_link])
  refine ⟨s.at i c l (net.server.hangUp s.server) none, .head hdie ?_, ⟨rfl, hsrv.hangUp _ hopen⟩, rfl,
    fun j hj => by rw [System.at_client_of_ne _ _ _ _ _ _ hj]⟩
  cases act with
  | reading got =>
    have hread : Step net (s.at i c l s.server (some (i, .reading got))) _ :=
      .readEnd rfl (by rw [System.at_client]) (by rw [System.at_link])
    exact .single hread
  | writing rest =>
    have hfails : Step net (s.at i c l s.server (some (i, .writing rest))) _ :=
      .writeFails rfl (by rw [System.at_client])
    have hnext : net.next (s.at i c l s.server (some (i, .writing rest))).server i =
        some (i, .reading []) := next_of_open hsrv hopen
    rw [hnext] at hfails
    exact .head hfails (.single hend)

theorem can_complete_waiting (hw : Writable net script) (hsrv : Serviceable net.server Open Polite)
    (waiting : List ι) : ∀ {s : System α ι σ Req Rep}, Steps net (net.start c₀ script) s →
      Ready net s → waiting.Nodup →
      (∀ i ∈ waiting, Deserving net script Polite s i ∧ i ∉ s.accepted) →
      ∃ s', Steps net s s' ∧ Ready net s' ∧ (∀ j, j ∉ waiting → s'.client j = s.client j) ∧
        ∀ i ∈ waiting, (s'.client i).replies.length = (script i).length := by
  -- Clients that wait can be accepted and served one after the other.
  induction waiting with
  | nil =>
    intro s _ hready _ _
    exact ⟨s, .refl, hready, fun _ _ => rfl, fun i hi => by cases hi⟩
  | cons i waiting ih =>
    intro s h hready hnodup hall
    obtain ⟨hdeserving, hnew⟩ := hall i (by simp)
    obtain ⟨hnotin, hnodup'⟩ := List.nodup_cons.mp hnodup
    have haccept : Step net s _ := .accept hready.free hready.listens hnew
    obtain ⟨t, hsteps, hready', hreplies, haccepted, hothers⟩ := can_complete hw hsrv (h.tail haccept)
      rfl (hsrv.accept _ hready.listens) ⟨hdeserving.own, hdeserving.alive, hdeserving.polite⟩
    have hreach := (h.tail haccept).trans hsteps
    obtain ⟨s', hrest, hready'', hsame, hserved⟩ := ih hreach hready' hnodup' fun j hj => by
      have hji : j ≠ i := fun heq => hnotin (heq ▸ hj)
      obtain ⟨hd, hn⟩ := hall j (by simp [hj])
      refine ⟨⟨hd.own, ?_, hd.polite⟩, ?_⟩
      · rw [hothers j hji]
        exact hd.alive
      · rw [haccepted]
        simp only [List.mem_append, List.mem_singleton, not_or]
        exact ⟨hn, hji⟩
    refine ⟨s', .trans (.head haccept hsteps) hrest, hready'', fun j hj => ?_, fun j hj => ?_⟩
    · have hj' : j ≠ i ∧ j ∉ waiting := by simpa using hj
      rw [hsame j hj'.2, hothers j hj'.1]
      rfl
    · rcases List.mem_cons.mp hj with rfl | hj
      · rw [hsame j hnotin]
        exact hreplies
      · exact hserved j hj

/-- **Nobody waits for ever.** From every state that is reached, all clients that wait can still get the
replies to their whole lists, the one that is being served first. -/
theorem can_complete_all (hw : Writable net script) (hsrv : Serviceable net.server Open Polite)
    (h : Steps net (net.start c₀ script) s)
    (hready : Ready net s ∨ ∃ k act, s.serving = some (k, act) ∧ Open s.server ∧
      (s.client k).phase ≠ .gone)
    {waiting : List ι} (hnodup : waiting.Nodup)
    (hall : ∀ i ∈ waiting, Deserving net script Polite s i ∧
      (i ∈ s.accepted → ∃ act, s.serving = some (i, act))) :
    ∃ s', Steps net s s' ∧ Ready net s' ∧
      ∀ i ∈ waiting, (s'.client i).replies.length = (script i).length := by
  rcases hready with hready | ⟨k, act, hserving, hopen, halive⟩
  · obtain ⟨s', hsteps, hready', -, hserved⟩ := can_complete_waiting hw hsrv waiting h hready hnodup
      fun i hi => by
        obtain ⟨hd, hs⟩ := hall i hi
        refine ⟨hd, fun hmem => ?_⟩
        obtain ⟨act, hact⟩ := hs hmem
        rw [hready.free] at hact
        cases hact
    exact ⟨s', hsteps, hready', hserved⟩
  · -- the session of `k` ends first, completed if `k` is one of those that wait
    have hfirst : ∃ t, Steps net s t ∧ Ready net t ∧ t.accepted = s.accepted ∧
        (∀ j, j ≠ k → t.client j = s.client j) ∧
        (k ∈ waiting → (t.client k).replies.length = (script k).length) := by
      by_cases hk : k ∈ waiting
      · obtain ⟨t, hsteps, hready', hreplies, haccepted, hothers⟩ :=
          can_complete hw hsrv h hserving hopen (hall k hk).1
        exact ⟨t, hsteps, hready', haccepted, hothers, fun _ => hreplies⟩
      · obtain ⟨t, hsteps, hready', haccepted, hothers⟩ := can_end hsrv hserving hopen halive
        exact ⟨t, hsteps, hready', haccepted, hothers, fun hyes => absurd hyes hk⟩
    obtain ⟨t, hsteps, hready', haccepted, hothers, hmine⟩ := hfirst
    obtain ⟨s', hrest, hready'', hsame, hserved⟩ := can_complete_waiting hw hsrv (waiting.erase k)
      (h.trans hsteps) hready' (hnodup.erase k) fun i hi => by
        obtain ⟨hik, hi'⟩ := hnodup.mem_erase_iff.mp hi
        obtain ⟨hd, hs⟩ := hall i hi'
        refine ⟨⟨hd.own, ?_, hd.polite⟩, fun hmem => ?_⟩
        · rw [hothers i hik]
          exact hd.alive
        · obtain ⟨act', hact⟩ := hs (haccepted ▸ hmem)
          rw [hserving] at hact
          cases hact
          exact hik rfl
    refine ⟨s', hsteps.trans hrest, hready'', fun i hi => ?_⟩
    by_cases hik : i = k
    · subst hik
      rw [hsame i fun hmem => (hnodup.mem_erase_iff.mp hmem).1 rfl]
      exact hmine hi
    · exact hserved i (hnodup.mem_erase_iff.mpr ⟨hik, hi⟩)

theorem served_in_full {srv : Server σ Req Rep} {c : σ} {past : List (Record ι Req Rep)} {isOpen : Bool}
    (hconducted : Conducted srv c₀ past isOpen c) {i : ι} {reqs : List Req} {reps : List Rep}
    (hhandled : handled past i <+: reqs) (hreplies : reps <+: answered past i)
    (hlen : reps.length = reqs.length) : handled past i = reqs ∧ answered past i = reps := by
  have hboth := length_handled_eq hconducted i
  have hle := hhandled.length_le
  have hge := hreplies.length_le
  exact ⟨hhandled.eq_of_length (by omega), (hreplies.eq_of_length (by omega)).symm⟩

end Complete

end Session
