import PathQuery.Entity

/-! Specimen entities. Treatments have a status and statuses a category, with ways back; a
node has a parent and children of its own kind; the others carry attributes of every kind,
and one that two rows may share. -/

namespace PathQuery

namespace Specimen

open Attribute (scalar toOne toMany)

def treatment : Entity :=
  ⟨"specimen.Treatment", "Treatment", "treatment", ["id"],
    [scalar "id" .uint, scalar "name" .text, scalar "status_id" .uint,
      toOne "status" "Status" "status_id" "id"]⟩

def status : Entity :=
  ⟨"specimen.Status", "Status", "status", ["id"],
    [scalar "id" .uint, scalar "name" .text, scalar "category_id" .uint,
      toOne "category" "Category" "category_id" "id",
      toMany "treatments" "Treatment" "id" "status_id"]⟩

def category : Entity :=
  ⟨"specimen.Category", "Category", "category", ["id"],
    [scalar "id" .uint, scalar "label" .text, toMany "statuses" "Status" "id" "category_id"]⟩

def node : Entity :=
  ⟨"specimen.Node", "Node", "node", ["id"],
    [scalar "id" .uint, scalar "name" .text, scalar "parent_id" .uint,
      toOne "parent" "Node" "parent_id" "id", toMany "children" "Node" "id" "parent_id"]⟩

def sample : Entity :=
  ⟨"specimen.Sample", "Sample", "sample", ["id"],
    [scalar "id" .int, scalar "ratio" .float, scalar "flag" .bool, scalar "note" .text]⟩

def odd : Entity :=
  ⟨"specimen.Odd", "Odd", "odd", ["id"],
    [scalar "id" .int, scalar "name" .text, scalar "score" .float, scalar "flag" .bool,
      scalar "sample_id" .int, toOne "sample" "Sample" "sample_id" "id",
      toMany "twins" "Odd" "name" "name"]⟩

def keyed : Entity :=
  ⟨"specimen.Keyed", "Keyed", "keyed", ["id"], [scalar "id" .int, scalar "name" .text]⟩

def entities : List Entity := [treatment, status, category, node, sample, odd, keyed]

/-- Each entity under its own name. -/
def schema : Schema := .ofList (entities.map fun e => (e.name, e))

end Specimen

end PathQuery
