import ActionTools.Files.Disk
import ActionTools.Main
import ActionTools.Proofs.Catalog
import ActionTools.Proofs.Commutation
import ActionTools.Proofs.Dispatch.Wiring
import ActionTools.Proofs.Naming.Order
import ActionTools.Proofs.Repository.Schema
import ActionTools.Proofs.Json.Alike
import ActionTools.Proofs.Scaffold.Equality
import ActionTools.Proofs.Scaffold.Recognition
import ActionTools.Proofs.Naming.Rule
import ActionTools.Proofs.Naming.Siblings
import ActionTools.Proofs.Discovery.Roots
import ActionTools.Proofs.Naming.Strict
import ActionTools.Proofs.Repository.Ingestion
import ActionTools.Proofs.Shadowing
