import Transducers.Diagram.Dot

/-!
# Diagrams in GraphML

An XML document that keeps the label of every node and arrow, and tells the initial
node.  Arrows are numbered in the order of the diagram.

* `Diagram.graphMlLines`: the lines;
* `Diagram.graphMl`: the text, every line of it ended.
-/

namespace Transducers

/-- One character inside an attribute or an element of XML. -/
def xmlEscape (c : Char) : List Char :=
  match c with
  | '&' => ['&', 'a', 'm', 'p', ';']
  | '<' => ['&', 'l', 't', ';']
  | '>' => ['&', 'g', 't', ';']
  | '"' => ['&', 'q', 'u', 'o', 't', ';']
  | '\x27' => ['&', 'a', 'p', 'o', 's', ';']
  | _ => [c]

def xmlEscaped (s : String) : String := .ofList (s.toList.flatMap xmlEscape)

namespace Diagram

/-- What stands before the graph: the XML declaration, the schema and the keys. -/
def graphMlHeader : List String :=
  ["<?xml version=\"1.0\" encoding=\"UTF-8\"?>",
    "<graphml xmlns=\"http://graphml.graphdrawing.org/xmlns\"",
    "         xmlns:xsi=\"http://www.w3.org/2001/XMLSchema-instance\"",
    "         xsi:schemaLocation=\"http://graphml.graphdrawing.org/xmlns",
    "         http://graphml.graphdrawing.org/xmlns/1.0/graphml.xsd\">",
    "  <key id=\"label\" for=\"node\" attr.name=\"label\" attr.type=\"string\"/>",
    "  <key id=\"initial\" for=\"node\" attr.name=\"initial\" attr.type=\"boolean\"/>",
    "  <key id=\"edge_label\" for=\"edge\" attr.name=\"label\" attr.type=\"string\"/>"]

def graphMlNode (v : Vertex) : List String :=
  [s!"    <node id=\"{xmlEscaped v.id}\">",
    s!"      <data key=\"label\">{xmlEscaped v.label}</data>",
    s!"      <data key=\"initial\">{v.initial}</data>",
    "    </node>"]

def graphMlEdge (e : Edge) (number : Nat) : List String :=
  ["    <edge id=\"e" ++ toString number ++
      s!"\" source=\"{xmlEscaped e.source}\" target=\"{xmlEscaped e.target}\">",
    s!"      <data key=\"edge_label\">{xmlEscaped e.label}</data>",
    "    </edge>"]

def graphMlLines (d : Diagram) : List String :=
  graphMlHeader ++
    [s!"  <graph id=\"{xmlEscaped d.name}\" edgedefault=\"directed\">"] ++
    d.vertices.flatMap graphMlNode ++
    d.edges.zipIdx.flatMap (fun (e, number) => graphMlEdge e number) ++
    ["  </graph>", "</graphml>"]

def graphMl (d : Diagram) : String := unlines d.graphMlLines

end Diagram

end Transducers
