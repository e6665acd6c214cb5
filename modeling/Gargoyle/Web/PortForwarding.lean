import Gargoyle.Data.Numerals

/-!
# The tables of the port forwarding page

The page has a table of single ports and a table of port ranges. A row has the cells of a
description, of a protocol and of three texts, and a checkbox: for a single port the three texts are
the external port, the address it is forwarded to and the port there, for a range its first and its
last port and the address. A row is added or edited from a form, whose fields are checked, also
against the rows that are there.
-/

namespace Gargoyle

namespace Web

namespace PortForwarding

open Numerals

inductive Proto
  | tcp
  | udp
  | both
deriving DecidableEq

structure Row where
  name : List Char
  proto : Proto
  cell2 : List Char
  cell3 : List Char
  cell4 : List Char
  enabled : Bool
deriving DecidableEq

structure Page where
  singles : List Row
  ranges : List Row
deriving DecidableEq

structure SingleFields where
  desc : List Char
  prot : Proto
  fp : List Char
  ip : List Char
  dp : List Char
deriving DecidableEq

structure RangeFields where
  desc : List Char
  prot : Proto
  sp : List Char
  ep : List Char
  ip : List Char
deriving DecidableEq

/-! ## The checks -/

/-- An error of a form: a field with a label, an end before the start (`GTErr`), a row of the range
form (`DupErr`) or of the single form (`CopErr`) that is there already. -/
inductive FormError
  | field (label : String)
  | gt
  | dup
  | cop
deriving DecidableEq

def validateNumeric (num : List Char) : ℕ := if num ≠ [] ∧ num.all Char.isDigit then 0 else 1

def validateIP (address : List Char) : ℕ :=
  if address = "0.0.0.0".toList then 1
  else if address = "255.255.255.255".toList then 2
  else
    let ipFields := address.splitOn '.'
    if ipFields.length = 4 ∧
        ipFields.all fun field => 1 ≤ field.length && field.length ≤ 3 && field.all Char.isDigit then
      if numeralValue 10 (ipFields.getD 3 []) = 255 then 3
      else if ipFields.any fun field => numeralValue 10 field > 255 then 4
      else 0
    else 5

/-- `proofreadFields`, with the result of the check of each field. -/
def proofreadFields (fields : List (String × ℕ)) : List FormError :=
  fields.filterMap fun field => if field.2 = 0 then none else some (.field field.1)

def clashes (p q : Proto) : Bool := p = q || p = .both || q = .both

def port (text : List Char) : ℕ := numeralValue 10 text

def others (rows : List Row) (excludeRow : Option ℕ) : List Row :=
  match excludeRow with
  | some i => rows.eraseIdx i
  | none => rows

def RangeFields.errors (f : RangeFields) : List FormError :=
  proofreadFields [("addr_sp_label", validateNumeric f.sp), ("addr_ep_label", validateNumeric f.ep),
    ("addr_ip_label", validateIP f.ip)]

def SingleFields.errors (f : SingleFields) : List FormError :=
  proofreadFields ([("add_fp_label", validateNumeric f.fp), ("add_ip_label", validateIP f.ip)] ++
    if f.dp.length > 0 then [("add_dp_label", validateNumeric f.dp)] else [])

def proofreadForwardRange (page : Page) (excludeRow : Option ℕ) (f : RangeFields) :
    List FormError :=
  if f.errors = [] then
    (if port f.sp > port f.ep then [FormError.gt] else []) ++
      (page.singles.filter fun row => clashes f.prot row.proto &&
        port f.sp ≤ port row.cell2 && port f.ep ≥ port row.cell2).map (fun _ => FormError.dup) ++
      ((others page.ranges excludeRow).filter fun row => clashes f.prot row.proto &&
        port row.cell2 ≤ port f.ep && port row.cell3 ≥ port f.sp).map fun _ => FormError.dup
  else f.errors

/-- `proofreadForwardSingle`. The texts of two single ports are compared as they are written. -/
def proofreadForwardSingle (page : Page) (excludeRow : Option ℕ) (f : SingleFields) :
    List FormError :=
  if f.errors = [] then
    ((others page.singles excludeRow).filter fun row => clashes f.prot row.proto &&
        f.fp = row.cell2).map (fun _ => FormError.cop) ++
      (page.ranges.filter fun row => clashes f.prot row.proto &&
        port row.cell2 ≤ port f.fp && port row.cell3 ≥ port f.fp).map fun _ => FormError.cop
  else f.errors

/-! ## The changes of the tables -/

def dash (v : List Char) : List Char := if v = [] then ['-'] else v

def mergeable (values row : Row) : Bool :=
  let otherProto := if values.proto = .tcp then Proto.udp else .tcp
  otherProto = row.proto && values.cell2 = row.cell2 && values.cell3 = row.cell3 &&
    values.cell4 = row.cell4

def merged (values row : Row) : Row :=
  { row with
    proto := .both
    name := if values.name ≠ ['-'] ∧ row.name = ['-'] then values.name else row.name }

def addRow (rows : List Row) (values : Row) : List Row :=
  if rows.any (mergeable values) then
    rows.map fun row => if mergeable values row then merged values row else row
  else rows ++ [values]

def addPortfRule (page : Page) (f : SingleFields) : Page :=
  if proofreadForwardSingle page none f = [] then
    let dp := if dash f.dp = ['-'] then dash f.fp else dash f.dp
    { page with singles := addRow page.singles ⟨dash f.desc, f.prot, dash f.fp, dash f.ip, dp, true⟩ }
  else page

def addPortfRangeRule (page : Page) (f : RangeFields) : Page :=
  if proofreadForwardRange page none f = [] then
    { page with
      ranges := addRow page.ranges ⟨dash f.desc, f.prot, dash f.sp, dash f.ep, dash f.ip, true⟩ }
  else page

/-- `editForward` for a single port, with the number of the row. -/
def editForwardSingle (page : Page) (i : ℕ) (f : SingleFields) : Page :=
  if proofreadForwardSingle page (some i) f = [] then
    { page with
      singles := page.singles.modify i fun row => ⟨f.desc, f.prot, f.fp, f.ip, f.dp, row.enabled⟩ }
  else page

/-- `editForward` for a range of ports. -/
def editForwardRange (page : Page) (i : ℕ) (f : RangeFields) : Page :=
  if proofreadForwardRange page (some i) f = [] then
    { page with
      ranges := page.ranges.modify i fun row => ⟨f.desc, f.prot, f.sp, f.ep, f.ip, row.enabled⟩ }
  else page

def Row.toggle (row : Row) : Row := { row with enabled := !row.enabled }

inductive Action
  | addPortfRule (f : SingleFields)
  | addPortfRangeRule (f : RangeFields)
  | editSingle (i : ℕ) (f : SingleFields)
  | editRange (i : ℕ) (f : RangeFields)
  | removeSingle (i : ℕ)
  | removeRange (i : ℕ)
  | toggleSingle (i : ℕ)
  | toggleRange (i : ℕ)
deriving DecidableEq

def Page.act (page : Page) : Action → Page
  | .addPortfRule f => PortForwarding.addPortfRule page f
  | .addPortfRangeRule f => PortForwarding.addPortfRangeRule page f
  | .editSingle i f => editForwardSingle page i f
  | .editRange i f => editForwardRange page i f
  | .removeSingle i => { page with singles := page.singles.eraseIdx i }
  | .removeRange i => { page with ranges := page.ranges.eraseIdx i }
  | .toggleSingle i => { page with singles := page.singles.modify i Row.toggle }
  | .toggleRange i => { page with ranges := page.ranges.modify i Row.toggle }

def Page.empty : Page := ⟨[], []⟩

def Page.run (page : Page) (actions : List Action) : Page := actions.foldl Page.act page

end PortForwarding

end Web

end Gargoyle
